import Mathlib

namespace Xv6

def NPROC : Nat := 64
def NOFILE : Nat := 16
def NFILE : Nat := 100
def NINODE : Nat := 50
def NDEV : Nat := 10
def ROOTDEV : Nat := 1
def MAXOPBLOCKS : Nat := 10
def LOGSIZE : Nat := MAXOPBLOCKS * 3
def NBUF : Nat := MAXOPBLOCKS * 3
def FSSIZE : Nat := 2000

def ROOTINO : Nat := 1
def BSIZE : Nat := 1024

instance : NeZero NBUF := ⟨by decide⟩
instance : NeZero BSIZE := ⟨by decide⟩

abbrev Block : Type := Fin BSIZE → UInt8

/-- The disk: block contents by block number. -/
abbrev Disk : Type := Nat → Block

end Xv6
