import Fvfs.FuseKernel

/-! What the daemon's own mount is to the kernel: whatever is asked through it, and whatever
the daemon does by itself in between, the kernel sees the volume. -/
namespace Fvfs

open Lib

namespace FuseMount

section Handlers

variable {sha256 : Bytes → Text} {files : FvfsPath → Prop} {v : Volume} {t : InodeTable}

end Handlers

section Sessions

variable {sha256 : Bytes → Text} {roots : DiskRoots} {files : FvfsPath → Prop}

/-- The sample's file is looked up, and a byte written past its end. -/
def sampleSession : Prog FuseOps Empty Unit :=
  .call (.lookup rootIno (some "d".toList)) fun dir => dir.toOption.elim (.ret ()) fun dir =>
  .call (.lookup dir.ino (some "e".toList)) fun file => file.toOption.elim (.ret ()) fun file =>
  .call (.write ⟨file.ino, 3, [2], by decide, by decide⟩) fun _ => .ret ()

end Sessions

end FuseMount

end Fvfs
