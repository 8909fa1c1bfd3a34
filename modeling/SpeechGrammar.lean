import SpeechGrammar.Automaton.Score
import SpeechGrammar.CommandLine.Run
import SpeechGrammar.Grammar.Cursor
import SpeechGrammar.Main
import SpeechGrammar.Proofs.Agreement
import SpeechGrammar.Proofs.Deduction.LeftRecursion
import SpeechGrammar.Proofs.Deduction.Termination
import SpeechGrammar.Proofs.Automaton.Closing
import SpeechGrammar.Proofs.Automaton.Reclosing
import SpeechGrammar.Proofs.Deduction.Completeness
import SpeechGrammar.Proofs.Deduction.Thinning
import SpeechGrammar.Proofs.OverApproximation
import SpeechGrammar.Proofs.RoundTrip
import SpeechGrammar.Proofs.Unfolding.Exactness
import SpeechGrammar.Proofs.Grammar.Integrity
import SpeechGrammar.Proofs.Refusals
import SpeechGrammar.Proofs.Grammar.Relabelling
import SpeechGrammar.Proofs.Unfolding.InexactReturns
import SpeechGrammar.Proofs.Unfolding.Relabelling
import SpeechGrammar.Proofs.Unfolding.Termination
import SpeechGrammar.Proofs.Deduction.Relabelling
import SpeechGrammar.Proofs.Copying
import SpeechGrammar.Proofs.CycleFree
import SpeechGrammar.Proofs.Source.Lexeme
import SpeechGrammar.Proofs.Source.Phrase
import SpeechGrammar.Proofs.Source.Recognition
import SpeechGrammar.Proofs.Components
import SpeechGrammar.Proofs.Grammar.Recursion
import SpeechGrammar.Proofs.Automaton.Relaxation
import SpeechGrammar.Proofs.Automaton.StateOrder
import SpeechGrammar.Proofs.Automaton.BestFirst
import SpeechGrammar.Proofs.Automaton.Scaling
import SpeechGrammar.Proofs.LanguageWeight
import SpeechGrammar.Proofs.Outcomes
import SpeechGrammar.Proofs.Deduction.Vocabulary
import SpeechGrammar.Proofs.Grammar.Normalization
import SpeechGrammar.Proofs.Source.Document
import SpeechGrammar.Proofs.Grammar.Acceptance
import SpeechGrammar.Proofs.Grammar.Recovery
import SpeechGrammar.Proofs.Automaton.Indexing
import SpeechGrammar.Proofs.Construction
import SpeechGrammar.Proofs.Grammar.Saturation
import SpeechGrammar.Proofs.Automaton.Acceptance
import SpeechGrammar.Proofs.Unfolding.Widening
import SpeechGrammar.Proofs.Repetition
import SpeechGrammar.Proofs.Grammar.Shadowing
import SpeechGrammar.Proofs.Grammar.NormalForm
import SpeechGrammar.Proofs.Deduction.Rendering
import SpeechGrammar.Proofs.Grammar.Placement
