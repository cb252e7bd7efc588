import Umko.Lib.Loop
import Umko.Lib.Local
import Umko.Lib.Memory
import Umko.Lib.BitField
import Umko.Lib.A64
import Umko.Lib.PcRel
import Umko.Lib.Bump
import Umko.Lib.FirstDef
import Umko.Lib.Pages
import Umko.Lib.Patch
import Umko.Elf
import Umko.Module
import Umko.Layout.Placement
import Umko.Layout.Extents
import Umko.Layout.Packing
import Umko.Layout.Narrowing
import Umko.Image.Copy
import Umko.Image.Footprint
import Umko.Image.Align
import Umko.Image.Protect
import Umko.Symbols.Resolve
import Umko.Symbols.Link
import Umko.Symbols.Independent
import Umko.Reloc.X86Spec
import Umko.Reloc.AArch64Spec
import Umko.Reloc.AArch64Patch
import Umko.Reloc.AArch64Groups
import Umko.Reloc.AArch64Insn
import Umko.Reloc.Pass
import Umko.Reloc.Simultaneous
import Umko.Reloc.Isolation
import Umko.Reloc.Rebase
import Umko.Load.Stages
import Umko.Load.Failure
import Umko.Load.Run
import Umko.Load.Base
import Umko.Load.Init
import Umko.Load.Visits
import Umko.Load.Main
import Umko.Load.Isolation
import Umko.Load.Swap
import Umko.Reloc.Idempotent
import Umko.Load.Halting
import Umko.Load.Protection
import Umko.Load.Skip
import Umko.Load.Linked
import Umko.Load.Integrity
import Umko.Load.Order
import Umko.Load.Reach
import Umko.Load.CommandLine
import Umko.Load.Pointers
import Umko.Load.Sequences
import Umko.Lib.Deps
import Umko.Load.LinkOrder
import Umko.Load.Agreement
import Umko.Lib.Numeral
import Umko.Mylibc.Defs
import Umko.Mylibc.Output
import Umko.Mylibc.Format
import Umko.Mylibc.Printf
import Umko.Mylibc.Union
