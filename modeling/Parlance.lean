import Parlance.Main
import Parlance.Proofs.Command.Checking
import Parlance.Proofs.Command.Formatting
import Parlance.Proofs.Command.Showing
import Parlance.Proofs.Diagnostic.Excerpt
import Parlance.Proofs.Diagnostic.Provenance
import Parlance.Proofs.Grammar.CorrectPrefix
import Parlance.Proofs.Grammar.LooseLists
import Parlance.Proofs.Grammar.Precedence
import Parlance.Proofs.Grammar.Spacing
import Parlance.Proofs.Grammar.Stopping
import Parlance.Proofs.Layout.Lines
import Parlance.Proofs.Layout.Slots
import Parlance.Proofs.Session.Editing
import Parlance.Proofs.Session.History
import Parlance.Proofs.Session.Landmarks
import Parlance.Proofs.Session.Suggestions
import Parlance.Proofs.Session.Words
import Parlance.Proofs.Token.Greediness
