import BlockLang.Main
import BlockLang.Proofs.Code.Outline
import BlockLang.Proofs.Core.Integers
import BlockLang.Proofs.Core.Items
import BlockLang.Proofs.Lowering.Defaults
import BlockLang.Proofs.Lowering.Flatness
import BlockLang.Proofs.Lowering.FrameGlobals
import BlockLang.Proofs.Lowering.Pairing
import BlockLang.Proofs.Lowering.Relaxing
import BlockLang.Proofs.Machine.Climbing
import BlockLang.Proofs.Machine.GoingOn
import BlockLang.Proofs.Machine.Keywords
import BlockLang.Proofs.Machine.Links
import BlockLang.Proofs.Machine.LoneRest
import BlockLang.Proofs.Machine.LooseBinding
import BlockLang.Proofs.Machine.Untied
import BlockLang.Proofs.Scopes.Assignments
import BlockLang.Proofs.Syntax.Decoding
