import SqlTree.Proofs.Acceptance
import SqlTree.Proofs.Piecewise

/-!
# Parsing queries

What is proved about parsing with a grammar in general holds of BigQuery queries, whose grammar meets
all conditions. They are checked by evaluation.

- `Grammar.isSafe`  : the conditions as a test
- `Grammar.isApart`, `Grammar.passesTrivia` : what else is relied upon, for the records of nodes and
  for the trivia in them
- `BigQuery.isSafe` : the grammar of queries passes it
- `BigQuery.parse_terminates` : parsing a query comes to its end
- `BigQuery.nodes_derivable`  : the trees of queries are built by the grammar
-/

namespace SqlTree

/-! ## A test for grammars -/

namespace Grammar

/-- The ranks of all nonterminals, with that of a production's left-hand side raised above the one of
its right-hand side if that is a single symbol. -/
def raise (ranks : List Nat) (p : Production) : List Nat :=
  match p.rhs with
  | [symbol] => ranks.set p.lhs (max (ranks.getD p.lhs 0) (symbol.rank (ranks.getD · 0) + 1))
  | _ => ranks

/-- The ranks of all nonterminals after some rounds over all productions. -/
def ranks (g : Grammar) : Nat → List Nat
  | 0 => List.replicate g.nonterminals.size 0
  | n + 1 => g.productions.toList.foldl raise (ranks g n)

/-- Whether a reduction by a production is harmless. -/
def reducesSafely (g : Grammar) (rank : Nat → Nat) (production : Production) : Bool :=
  (match production.rhs with
    | [symbol] => symbol.rank rank < rank production.lhs
    | _ => true) &&
  match production.rhs.getLast? with
  | some (.nonterminal i) => !g.isErasable i
  | _ => true

/-- Whether reading a right-hand side is harmless. -/
def readsSafely (g : Grammar) (production : Production) : Bool :=
  (production.rhs.zip production.rhs.tail).all (fun
    | (.nonterminal i, .nonterminal _) => !g.isErasable i
    | _ => true) &&
  !production.rhs.contains (.terminal .eof) && !production.rhs.contains (.nonterminal start)

/-- Whether a grammar whose start rule is nonterminal 1 meets all conditions, with ranks that take at
most `rounds` rounds to find. -/
def isSafe (g : Grammar) (rounds : Nat) : Bool :=
  (g.ranks rounds).all (· ≤ g.nonterminals.size) &&
  g.productions.toList.zipIdx.all (fun (production, p) =>
    (p == acceptProduction || g.reducesSafely ((g.ranks rounds).getD · 0) production) &&
      g.readsSafely production) &&
  g.nonterminals.toList.all (fun info => !info.kind.any Kind.isErrorOrMissing) &&
  (g.productions[acceptProduction]?).any (fun production =>
    production.lhs == start && production.rhs == [.nonterminal 1]) &&
  (g.nonterminals[1]?).any (fun info => info.kind.isNone)

/-- A test for rules that make nodes of different kinds and never stand for nothing. -/
def isApart (g : Grammar) : Bool :=
  (List.range g.nonterminals.size).all fun i =>
    match g.visibleKind? i with
    | some kind => g.nonterminalOfKind? kind == some i && !g.isErasable i
    | none => true

/-- Whether no production asks for trivia. -/
def passesTrivia (g : Grammar) : Bool :=
  g.productions.toList.all fun production => production.rhs.all fun
    | .terminal kind => !kind.isTrivia
    | .nonterminal _ => true

variable {g : Grammar} {rounds : Nat}

/-- The rank of a nonterminal after some rounds. -/
def rank (g : Grammar) (rounds : Nat) (i : Nat) : Nat := (g.ranks rounds).getD i 0

theorem production_of_isSafe (h : g.isSafe rounds = true) {p : Nat} {production : Production}
    (hp : g.productions[p]? = some production) :
    (p ≠ acceptProduction → g.reducesSafely (g.rank rounds) production = true) ∧
      g.readsSafely production = true := by
  simp only [isSafe, Bool.and_eq_true, List.all_eq_true] at h
  have hcheck := h.1.1.1.2 (production, p) (List.mk_mem_zipIdx_iff_getElem?.2 (by simpa using hp))
  simp only [Bool.or_eq_true, beq_iff_eq] at hcheck
  exact ⟨fun hne => hcheck.1.resolve_left hne, hcheck.2⟩

theorem tame_of_isSafe (h : g.isSafe rounds = true) : g.Tame (g.rank rounds) where
  rank_le i := by
    simp only [isSafe, Bool.and_eq_true, List.all_eq_true, decide_eq_true_eq] at h
    rw [rank, List.getD_eq_getElem?_getD]
    cases hi : (g.ranks rounds)[i]? with
    | none => exact Nat.zero_le _
    | some r => exact h.1.1.1.1 r (List.mem_of_getElem? hi)
  unit p production symbol hp hne hrhs := by
    have hcheck := (production_of_isSafe h hp).1 hne
    simp only [reducesSafely, hrhs, Bool.and_eq_true, decide_eq_true_eq] at hcheck
    exact hcheck.1
  last p production i hp hne hlast := by
    have hcheck := (production_of_isSafe h hp).1 hne
    simp only [reducesSafely, hlast, Bool.and_eq_true] at hcheck
    simpa using hcheck.2
  next p production mark i j hp hi herasable hj := by
    have hcheck := (production_of_isSafe h hp).2
    simp only [readsSafely, Bool.and_eq_true, List.all_eq_true] at hcheck
    have hpair : (Symbol.nonterminal i, Symbol.nonterminal j) ∈
        production.rhs.zip production.rhs.tail := by
      refine List.mem_of_getElem? (i := mark) ?_
      rw [List.getElem?_zip_eq_some]
      exact ⟨hi, by simpa using hj⟩
    have hnot := hcheck.1.1 _ hpair
    simp [herasable] at hnot
  eof p production hp := by
    have hcheck := (production_of_isSafe h hp).2
    simp only [readsSafely, Bool.and_eq_true] at hcheck
    simpa using hcheck.1.2

theorem namesNodes_of_isSafe (h : g.isSafe rounds = true) : g.NamesNodes := by
  intro i kind hkind
  simp only [isSafe, Bool.and_eq_true, List.all_eq_true] at h
  obtain ⟨info, hinfo, hkind⟩ := Option.bind_eq_some_iff.1 hkind
  have hcheck := h.1.1.2 info (Array.mem_toList_iff.2 (Array.mem_of_getElem? hinfo))
  simpa [hkind] using hcheck

theorem startsOnce_of_isSafe (h : g.isSafe rounds = true) :
    ∃ production, g.StartsOnce production (.nonterminal 1) := by
  have haccept := h
  simp only [isSafe, Bool.and_eq_true, Option.any_eq_true, beq_iff_eq] at haccept
  obtain ⟨production, hproduction, hlhs, hrhs⟩ := haccept.1.2
  refine ⟨production, hproduction, hrhs, fun p other hp => ?_⟩
  have hcheck := (production_of_isSafe h hp).2
  simp only [readsSafely, Bool.and_eq_true] at hcheck
  rw [hlhs]
  simpa using hcheck.2

end Grammar

/-! ## The grammar of queries -/

namespace BigQuery

set_option maxRecDepth 100000 in
theorem isSafe : (match BigQuery.grammar with
    | .ok g => g.isSafe 8 && g.isApart && g.passesTrivia &&
        g.nonterminals[1]? == some ⟨root, none⟩ && g.isErasable 1
    | .error _ => false) = true := by
  rw [grammar_eq]
  decide +kernel

/-- The grammar of queries meets all conditions, and its root may be empty. -/
theorem grammar_spec {g : Grammar} (hgrammar : BigQuery.grammar = .ok g) :
    g.isSafe 8 = true ∧ g.isApart = true ∧ g.passesTrivia = true ∧
      g.nonterminals[1]? = some ⟨root, none⟩ ∧ g.isErasable 1 = true := by
  have hsafe := isSafe
  rw [hgrammar] at hsafe
  simpa only [Bool.and_eq_true, beq_iff_eq, and_assoc] using hsafe

/-- The table of queries is made from their grammar, which meets all conditions. -/
theorem table_spec : ∃ g, BigQuery.grammar = .ok g ∧ BigQuery.table = Table.ofGrammar g ∧
    g.isSafe 8 = true ∧ g.nonterminals[1]? = some ⟨root, none⟩ := by
  have hsafe := isSafe
  unfold BigQuery.table
  cases hgrammar : BigQuery.grammar with
  | error e =>
    rw [hgrammar] at hsafe
    cases hsafe
  | ok g =>
    obtain ⟨hsafe, -, -, hroot, -⟩ := grammar_spec hgrammar
    exact ⟨g, rfl, rfl, hsafe, hroot⟩

/-- The root of queries may be empty. -/
theorem isErasable_root {g : Grammar} (hgrammar : BigQuery.grammar = .ok g) :
    g.isErasable 1 = true := (grammar_spec hgrammar).2.2.2.2

open Tree (Occurs Reached)
open Machine (Run)

theorem suits {g : Grammar} {setting : Setting} {text : List Char}
    (htable : BigQuery.table = Table.ofGrammar g) (hsafe : g.isSafe 8 = true)
    (h : Occurs BigQuery.table setting text) : setting.Suits g (g.rank 8) text := by
  rw [htable] at h
  have hnames := Grammar.namesNodes_of_isSafe hsafe
  exact ⟨h.table_eq, h.truthful, h.grammatical hnames, hnames, Grammar.tame_of_isSafe hsafe⟩

/-- Parsing comes to its end, with or without an old tree: it finishes before its steps are used up,
and on the way the place in the text never goes back, turns that only build something are bounded by
the height of the stack, and at most nine repairs are begun at one place, of which the ninth ends the
parse or leaves the place. -/
theorem parse_terminates {setting : Setting} {text : List Char}
    (h : Occurs BigQuery.table setting text) (firstId : Nat) :
    (∃ turns m last, Run setting (Machine.start text firstId) turns m ∧
      m.step setting = .finished last ∧
      turns.length < Machine.maxSteps BigQuery.table (Text.size text) ∧
      Tree.parseWith setting text firstId = last.finish text) ∧
    ∀ before m turns m', Run setting (Machine.start text firstId) before m →
      Run setting m turns m' →
        m.position ≤ m'.position ∧
        ((∀ turn ∈ turns, turn.isQuiet = true) → turns.length ≤
          (m.stack.length + 1) * (2 * BigQuery.table.grammar.nonterminals.size + 3) + 1) ∧
        (m'.position = m.position →
          (turns ++ [(m'.turn setting).2]).countP Turn.isRepair ≤ 9 ∧
          ((turns ++ [(m'.turn setting).2]).countP Turn.isRepair = 9 →
            (∃ last, m'.step setting = .finished last) ∨
            ∃ next, m'.step setting = .running next ∧ m'.position < next.position)) := by
  obtain ⟨g, -, htable, hsafe, -⟩ := table_spec
  have hsuits := suits htable hsafe h
  refine ⟨?_, fun before m turns m' hbefore hrun => ?_⟩
  · rw [← h.table_eq]
    exact Machine.exists_run hsuits firstId
  · have hregular := hbefore.regular (.start g text firstId) hsuits
    refine ⟨hrun.position_le hregular hsuits, fun hquiet => ?_, fun hposition => ?_⟩
    · have hlength := hrun.length_le hregular hsuits hquiet
      rw [htable]
      exact Nat.le_trans (Nat.le_of_add_right_le hlength) m.potential_le
    · exact hrun.countP_repair_le hregular hsuits hposition

/-- A query with an operator that may be split, an unclosed bracket and a missing table. -/
theorem parse_terminates_on_faults :
    ∃ turns m last,
      Run ⟨BigQuery.table, {}, none⟩ (Machine.start "SELECT (a >> 1 FROM".toList 0) turns m ∧
      m.step ⟨BigQuery.table, {}, none⟩ = .finished last ∧
      turns.length < Machine.maxSteps BigQuery.table 19 ∧
      Tree.parseWith ⟨BigQuery.table, {}, none⟩ "SELECT (a >> 1 FROM".toList 0 =
        last.finish "SELECT (a >> 1 FROM".toList :=
  (parse_terminates (.scratch {} "SELECT (a >> 1 FROM".toList) 0).1

end BigQuery
end SqlTree
