import RegularLanguages.Main
import RegularLanguages.Proofs.Alphabet.Origins
import RegularLanguages.Proofs.CharClass.Extremes
import RegularLanguages.Proofs.CharClass.Search
import RegularLanguages.Proofs.CommandLine.Agreement
import RegularLanguages.Proofs.Dfa.Complement
import RegularLanguages.Proofs.Dfa.LastWriter
import RegularLanguages.Proofs.Nfa.OfPattern
import RegularLanguages.Proofs.Nfa.Refinement
import RegularLanguages.Proofs.Nfa.Safety
import RegularLanguages.Proofs.Pattern.Derivation
import RegularLanguages.Proofs.Pattern.Outline
import RegularLanguages.Proofs.RegularLanguage.History
import RegularLanguages.Proofs.Pattern.NormalForm
import RegularLanguages.Proofs.Pattern.Reassociation
import RegularLanguages.Proofs.Determinization.Embedded
import RegularLanguages.Proofs.Alphabet.Carving
import RegularLanguages.Proofs.Dfa.Thrift
import RegularLanguages.Proofs.Dfa.Recopy
import RegularLanguages.Proofs.Pattern.Emptiness
import RegularLanguages.Proofs.CharClass.Decisions
import RegularLanguages.Proofs.Token.ClassText
import RegularLanguages.Proofs.Token.Resumption
import RegularLanguages.Proofs.Dfa.Sink
import RegularLanguages.Proofs.Determinization.Record
import RegularLanguages.Proofs.Automaton.Blocks
import RegularLanguages.Proofs.Dump.Paragraph
import RegularLanguages.Proofs.Dfa.Dump
import RegularLanguages.Proofs.Dfa.Resemblance
import RegularLanguages.Proofs.Nfa.Resemblance
import RegularLanguages.Proofs.Nfa.Closure
import RegularLanguages.Proofs.CharClass.Text
import RegularLanguages.Proofs.Pattern.Tree
import RegularLanguages.Proofs.Graph.Passage
import RegularLanguages.Proofs.Nfa.Nesting
import RegularLanguages.Proofs.Graph.Trail
import RegularLanguages.Proofs.Pattern.Rounds
