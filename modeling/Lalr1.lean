import Lalr1.Symbol
import Lalr1.Interning
import Lalr1.Grammar
import Lalr1.Analysis
import Lalr1.Items
import Lalr1.Automaton
import Lalr1.Table
import Lalr1.Parser
import Lalr1.Augment
import Lalr1.Memo
import Lalr1.Closure
import Lalr1.Collection
import Lalr1.TableWrites
import Lalr1.FirstFollow
import Lalr1.Slr
import Lalr1.EpsilonRhs
import Lalr1.Fixpoint
import Lalr1.Tree
import Lalr1.Driver
import Lalr1.Soundness
import Lalr1.Completeness
import Lalr1.Lexer
import Lalr1.G4Parser
import Lalr1.Incomplete
import Lalr1.Canonical
import Lalr1.Codegen
import Lalr1.Derivation
import Lalr1.Follow
import Lalr1.Lalr
import Lalr1.Coverage
import Lalr1.CollectionFuel
import Lalr1.GeneratedDriver
import Lalr1.G4Frontend
import Lalr1.Calculator
import Lalr1.Regex
import Lalr1.ParseInput
import Lalr1.GeneratedLexer
