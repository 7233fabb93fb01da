import SqlTree.Proofs.BigQuery
import SqlTree.Proofs.Diagnostics
import SqlTree.Proofs.Language
import SqlTree.Proofs.Leaves
import SqlTree.Proofs.Recognition
import SqlTree.Proofs.Reductions
import SqlTree.Session
import SqlTree.Token.Basic
import SqlTree.Tree.Cursor
import SqlTree.Tree.Preorder
import SqlTree.Proofs.Grouping
import SqlTree.Proofs.Precedence
import SqlTree.Proofs.Numbering
import SqlTree.Proofs.Sharing
import SqlTree.Proofs.Simulation
import SqlTree.Proofs.Lookups
import SqlTree.Proofs.Change
import SqlTree.Proofs.Window
import SqlTree.Proofs.Edges
import SqlTree.Proofs.Replacement
import SqlTree.Proofs.Quoted
import SqlTree.Proofs.Closers
import SqlTree.Proofs.Walk
import SqlTree.Proofs.Definitions
import SqlTree.Proofs.Lexemes
import SqlTree.Proofs.Numeral
import SqlTree.Proofs.Incremental
