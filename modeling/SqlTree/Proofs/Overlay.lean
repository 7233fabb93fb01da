import SqlTree.Parse.Stack

/-!
# The stack of a simulation is a list of states

A simulation works on the real stack without copying it: what it pushes lies on top, and what it pops
below that is only passed over, together with the extra entries in between. For everything that can be
asked of it, it is the list of the states of the grammar symbols.

- `Stack.states_cons`, `Stack.states_append` : the states of a stack
- `Overlay.pop_fst`, `Overlay.states_pop`, `Overlay.below_pop` : what popping does
- `Overlay.Request`, `Overlay.serve` : what can be asked of a stack of states
- `Overlay.run_popped` : every sequence of requests is answered as by a list
-/

namespace SqlTree

/-! ## The states of a stack -/

namespace Stack

theorem states_cons_of_extra {e : Entry} {below : Stack} (h : e.extra = true) :
    states (e :: below) = states below := by
  simp [states, h]

theorem states_cons {e : Entry} {below : Stack} (h : e.extra = false) :
    states (e :: below) = e.state :: states below := by
  simp [states, h]

theorem states_append (a b : Stack) : states (a ++ b) = states a ++ states b := by
  simp [states]

theorem states_of_extras {extras : Stack} (h : ∀ e ∈ extras, e.extra = true) : states extras = [] := by
  simpa [states] using h

/-- Extra entries on top do not count. -/
theorem states_dropWhile_extra (stack : Stack) :
    states (stack.dropWhile Entry.extra) = states stack := by
  induction stack with
  | nil => rfl
  | cons e stack ih =>
    by_cases hextra : e.extra = true
    · rw [List.dropWhile_cons_of_pos hextra, ih, states_cons_of_extra hextra]
    · rw [List.dropWhile_cons_of_neg hextra]

end Stack

namespace Overlay

/-! ## Popping -/

/-- Taking symbols from the real stack leaves the entries below them. -/
theorem popBelow_spec (n : Nat) (stack : Stack) :
    (popBelow n stack).1 = decide (n ≤ stack.states.length) ∧
      (popBelow n stack).2.states = stack.states.drop n ∧ (popBelow n stack).2 <:+ stack := by
  induction n generalizing stack with
  | zero => exact ⟨by simp [popBelow], rfl, List.suffix_refl stack⟩
  | succ n ih =>
    have hskip := Stack.states_dropWhile_extra stack
    have hsuffix := List.dropWhile_suffix (l := stack) Entry.extra
    have hhead := List.head?_dropWhile_not Entry.extra stack
    rw [popBelow, ← hskip]
    split
    · -- The next symbol is taken, with the extra entries above it.
      rename_i e rest hdrop
      rw [hdrop] at hhead hsuffix ⊢
      rw [Stack.states_cons (by simpa using hhead), List.length_cons, List.drop_succ_cons]
      obtain ⟨henough, hstates, hrest⟩ := ih rest
      exact ⟨by simpa using henough, hstates, hrest.trans ((List.suffix_cons e rest).trans hsuffix)⟩
    · -- There are only extra entries left.
      rename_i hdrop
      rw [hdrop]
      exact ⟨rfl, rfl, List.nil_suffix⟩

/-- A pop fails when there are fewer states than it asks for. -/
theorem pop_fst (o : Overlay) (n : Nat) : (o.pop n).1 = decide (n ≤ o.states.length) := by
  have hbelow := (popBelow_spec (n - o.pushed.length) o.below).1
  rw [pop, states, List.length_append, hbelow]
  exact decide_eq_decide.2 (by omega)

/-- A pop takes states from the top, all of them if there are not enough. -/
theorem states_pop (o : Overlay) (n : Nat) : (o.pop n).2.states = o.states.drop n := by
  have hbelow := (popBelow_spec (n - o.pushed.length) o.below).2.1
  rw [pop, states, states, List.drop_append, hbelow]

/-- A pop only passes over entries of the real stack. -/
theorem below_pop (o : Overlay) (n : Nat) : (o.pop n).2.below <:+ o.below :=
  (popBelow_spec (n - o.pushed.length) o.below).2.2

/-! ## Requests -/

/-- What can be asked of a stack of states. -/
inductive Request where
  | push (state : Nat)
  | pop (count : Nat)
  | last

/-- What is answered to a request. -/
inductive Reply where
  | pushed
  /-- Whether there were as many states. -/
  | popped (enough : Bool)
  /-- The state on top, if there is one. -/
  | last (state? : Option Nat)
  deriving DecidableEq

def serve (o : Overlay) : Request → Reply × Overlay
  | .push state => (.pushed, o.push state)
  | .pop count => (.popped (o.pop count).1, (o.pop count).2)
  | .last => (.last o.top?, o)

/-- The requests, as an ordinary list serves them that has its top at the end. -/
def serveList (states : List Nat) : Request → Reply × List Nat
  | .push state => (.pushed, states ++ [state])
  | .pop count => (.popped (decide (count ≤ states.length)), states.take (states.length - count))
  | .last => (.last states.getLast?, states)

/-- The answers to several requests, one after the other, and what is left in the end. -/
def run {σ : Type} (serve : σ → Request → Reply × σ) : List Request → σ → List Reply × σ
  | [], s => ([], s)
  | request :: requests, s =>
    let (reply, s) := serve s request
    let (replies, s) := run serve requests s
    (reply :: replies, s)

/-- The overlay looks like a list, and what is left of the real stack is its lower part. -/
structure Mimics (stack : Stack) (o : Overlay) (states : List Nat) : Prop where
  states_eq : o.states.reverse = states
  below : o.below <:+ stack

variable {stack : Stack} {o : Overlay} {states : List Nat}

/-- A request gets the same answer, and leaves things as they should be. -/
theorem Mimics.serve (h : Mimics stack o states) (request : Request) :
    (o.serve request).1 = (serveList states request).1 ∧
      Mimics stack (o.serve request).2 (serveList states request).2 := by
  obtain ⟨rfl, hbelow⟩ := h
  cases request with
  | push state => exact ⟨rfl, by simp [Overlay.serve, serveList], hbelow⟩
  | pop count =>
    refine ⟨?_, ?_, (below_pop o count).trans hbelow⟩
    · rw [Overlay.serve, serveList, pop_fst, List.length_reverse]
    · rw [Overlay.serve, serveList, states_pop, List.reverse_drop, List.length_reverse]
  | last =>
    refine ⟨?_, rfl, hbelow⟩
    rw [Overlay.serve, serveList, top?_eq_head?, List.getLast?_reverse]

theorem Mimics.run (h : Mimics stack o states) (requests : List Request) :
    (Overlay.run Overlay.serve requests o).1 = (Overlay.run serveList requests states).1 ∧
      Mimics stack (Overlay.run Overlay.serve requests o).2
        (Overlay.run serveList requests states).2 := by
  induction requests generalizing o states with
  | nil => exact ⟨rfl, h⟩
  | cons request requests ih =>
    -- The first request is answered alike, and what is left is alike again.
    obtain ⟨hreply, hnext⟩ := h.serve request
    obtain ⟨hreplies, hlast⟩ := ih hnext
    exact ⟨List.cons_eq_cons.2 ⟨hreply, hreplies⟩, hlast⟩

/-- Without its top entries, however many, a stack serves every sequence of requests like the list of
the states of those entries below that are not extra. What it has not passed over are the lowest of
its entries, unchanged. -/
theorem run_popped (entries : List Entry) (depth : Nat) (requests : List Request) :
    let kept := entries.take (entries.length - depth)
    let served := run serve requests (popped entries.reverse depth)
    let expected := run serveList requests ((kept.filter fun e => !e.extra).map Entry.state)
    served.1 = expected.1 ∧ served.2.states.reverse = expected.2 ∧
      served.2.below.reverse <+: kept := by
  intro kept served expected
  have hdrop : entries.reverse.drop depth = kept.reverse := List.drop_reverse
  have hmimics : Mimics kept.reverse (popped entries.reverse depth)
      ((kept.filter fun e => !e.extra).map Entry.state) := by
    refine ⟨?_, hdrop ▸ List.suffix_refl _⟩
    simp [popped, hdrop, Overlay.states, Stack.states, List.filter_reverse]
  obtain ⟨hreplies, hstates, hbelow⟩ := hmimics.run requests
  exact ⟨hreplies, hstates, List.reverse_suffix.1 (by simpa using hbelow)⟩

/-- Popping steps over an extra entry, and past the bottom it takes what there is. -/
example : (run serve [.push 7, .pop 2, .last, .pop 2, .last] (popped
    [{ state := 2, start := 0, stop := 0, extra := true }, { state := 2, start := 0, stop := 0 },
      { state := 1, start := 0, stop := 0 }] 0)).1 =
    [.pushed, .popped true, .last (some 1), .popped false, .last none] := by decide

end Overlay
end SqlTree
