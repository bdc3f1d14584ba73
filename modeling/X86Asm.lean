import X86Asm.Assembler
import X86Asm.Interchange.Error
import X86Asm.Interchange.Image
import X86Asm.Interchange.Node
import X86Asm.Program.Edit
import X86Asm.Proofs.Encoding.Absolute
import X86Asm.Proofs.Encoding.Context
import X86Asm.Proofs.Encoding.Decoding
import X86Asm.Proofs.Encoding.Fixup
import X86Asm.Proofs.Image.Consistency
import X86Asm.Proofs.Image.Divergence
import X86Asm.Proofs.Image.Rebase
import X86Asm.Proofs.Encoding.Jump
import X86Asm.Proofs.Layout.Settling
import X86Asm.Proofs.Layout.Slack
import X86Asm.Proofs.Payload.Variables
import X86Asm.Proofs.Layout.Totality
import X86Asm.Proofs.Image.Totality
import X86Asm.Proofs.Layout.BranchForm
import X86Asm.Proofs.Layout.Canonical
import X86Asm.Proofs.Image.BranchForm
import X86Asm.Proofs.Program.Listing
import X86Asm.Proofs.Program.Registry
import X86Asm.Proofs.Program.Handles
import X86Asm.Proofs.Image.Relocations
import X86Asm.Proofs.Image.Joining
import X86Asm.Proofs.Image.Unresolved
import X86Asm.Proofs.Image.Sizing
import X86Asm.Proofs.Image.Sections
import X86Asm.Proofs.Image.Renaming
import X86Asm.Proofs.Layout.Renaming
import X86Asm.Proofs.Image.Limits
import X86Asm.Proofs.Image.SizeLimit
import X86Asm.Proofs.Interchange.RoundTrip
import X86Asm.Proofs.Workspace.Clearing
import X86Asm.Proofs.Workspace.Reuse
import X86Asm.Proofs.Arena.Ledger
import X86Asm.Proofs.Program.Names
import X86Asm.Proofs.Program.Mentions
