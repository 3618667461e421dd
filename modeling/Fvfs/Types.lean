import Fvfs.Path
import Mathlib.Data.BitVec
import Mathlib.Data.Fintype.Defs

/-! Tiers, the per-file tier bitmask, metadata records and WAL entries. -/
namespace Fvfs

abbrev Bytes := List UInt8

inductive Tier where
  | localDisk | nas | s3
  deriving DecidableEq, Repr

instance : Fintype Tier := ⟨{.localDisk, .nas, .s3}, fun t => by cases t <;> simp⟩

def Tier.index : Tier → Nat
  | localDisk => 0
  | nas => 1
  | s3 => 2

def Tier.bitmask (t : Tier) : BitVec 8 := 1#8 <<< t.index

structure TierBitmask where
  bits : BitVec 8
  deriving DecidableEq

namespace TierBitmask

def none : TierBitmask := ⟨0⟩
def all : TierBitmask := ⟨0x07⟩

def set (b : TierBitmask) (t : Tier) : TierBitmask := ⟨b.bits ||| t.bitmask⟩
def clear (b : TierBitmask) (t : Tier) : TierBitmask := ⟨b.bits &&& ~~~t.bitmask⟩
def has (b : TierBitmask) (t : Tier) : Bool := b.bits &&& t.bitmask != 0

/-- Present on the colder tiers: the S3 bit suffices, and S3 itself is never evicted. -/
def safeToEvictFrom (b : TierBitmask) : Tier → Bool
  | .localDisk => b.has .s3
  | .nas => b.has .s3
  | .s3 => false

theorem has_eq (b : TierBitmask) (t : Tier) : b.has t = b.bits.getLsbD t.index := by
  have power : t.bitmask = BitVec.twoPow 8 t.index := (BitVec.twoPow_eq ..).symm
  have nonzero : BitVec.twoPow 8 t.index ≠ 0#8 := by cases t <;> decide
  rw [has, power, BitVec.and_twoPow]
  cases b.bits.getLsbD t.index <;> simp [nonzero]

@[simp] theorem has_none (t : Tier) : none.has t = false := by cases t <;> rfl
@[simp] theorem has_all (t : Tier) : all.has t = true := by cases t <;> rfl

@[simp] theorem has_set (b : TierBitmask) (t u : Tier) :
    (b.set t).has u = (b.has u || decide (u = t)) := by
  simp only [has_eq, set, BitVec.getLsbD_or]
  congr 1
  cases t <;> cases u <;> rfl

@[simp] theorem has_clear (b : TierBitmask) (t u : Tier) :
    (b.clear t).has u = (b.has u && !decide (u = t)) := by
  simp only [has_eq, clear, BitVec.getLsbD_and]
  congr 1
  cases t <;> cases u <;> rfl

@[simp] theorem safeToEvictFrom_s3 (b : TierBitmask) : b.safeToEvictFrom .s3 = false := rfl

theorem safeToEvictFrom_eq (b : TierBitmask) {t : Tier} (evictable : t ≠ .s3) :
    b.safeToEvictFrom t = b.has .s3 := by
  cases t <;> simp_all [safeToEvictFrom]

end TierBitmask

inductive EntryKind where
  | file | directory
  deriving DecidableEq, Repr

structure FileMetadata where
  id : Nat
  path : FvfsPath
  kind : EntryKind
  sizeBytes : Nat
  sha256 : Text
  tierBitmask : TierBitmask
  createdAt : Int
  modifiedAt : Int
  accessedAt : Int
  accessCount30d : Nat
  mimeType : Option Text
  deriving DecidableEq

namespace FileMetadata

def newDir (now : Int) (path : FvfsPath) : FileMetadata where
  id := 0
  path := path
  kind := .directory
  sizeBytes := 0
  sha256 := []
  tierBitmask := .all
  createdAt := now
  modifiedAt := now
  accessedAt := now
  accessCount30d := 0
  mimeType := some "inode/directory".toList

def isDir (m : FileMetadata) : Bool := m.kind == .directory

end FileMetadata

inductive WalOp where
  | replicateNas | uploadS3
  deriving DecidableEq, Repr

structure WalEntry where
  id : Nat
  fileId : Nat
  op : WalOp
  enqueuedAt : Int
  attempts : Nat
  lastError : Option Text
  deriving DecidableEq

/-- A request to copy a file read from a colder tier back to the local disk. -/
structure PromoteSignal where
  path : FvfsPath
  source : Tier
  deriving DecidableEq

end Fvfs
