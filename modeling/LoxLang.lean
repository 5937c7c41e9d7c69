import LoxLang.Main
import LoxLang.Proofs.Composition.Agreement
import LoxLang.Proofs.Evaluation.Budgets
import LoxLang.Proofs.Grammar.Breaks
import LoxLang.Proofs.Grammar.Progress
import LoxLang.Proofs.Grammar.RoundTrip
import LoxLang.Proofs.Grammar.StrayOperators
import LoxLang.Proofs.Lexical.Rescanning
import LoxLang.Proofs.Machine.Sharing
import LoxLang.Proofs.Scoping.Placement
import LoxLang.Proofs.Scoping.Recording
import LoxLang.Proofs.Scoping.Unused
import LoxLang.Proofs.Session.Arrays
import LoxLang.Proofs.Session.ClosedOutput
import LoxLang.Proofs.Session.Completions
import LoxLang.Proofs.Session.Composition
import LoxLang.Proofs.Session.Dialogue
import LoxLang.Proofs.Session.ForLoops
import LoxLang.Proofs.Session.Gating
import LoxLang.Proofs.Session.GlobalScope
import LoxLang.Proofs.Session.Inheritance
import LoxLang.Proofs.Session.Initializers
import LoxLang.Proofs.Session.Internal
import LoxLang.Proofs.Session.Joining
import LoxLang.Proofs.Session.Printing
import LoxLang.Proofs.Session.References
import LoxLang.Proofs.Session.Renaming
import LoxLang.Proofs.Session.Slots
import LoxLang.Proofs.Session.Supers
import LoxLang.Proofs.Session.Unbound
import LoxLang.Tree.Sketch
