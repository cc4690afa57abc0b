import Cs350.Lib.Writes
import Mathlib.Data.Fin.Basic

set_option autoImplicit false

/-! # The redo log (`log.c`)

The parts of `log.c` that read and write the disk: `write_log`, `write_head`, `install_trans`,
`read_head`, `commit` and `recover_from_log`. There is one device, so block numbers alone name
blocks.

These functions see the disk through the buffer cache. `Io.bread` is what `bread` returns for each
block (the cached contents where the block is cached, the disk's elsewhere), and `Io.writes` lists
the block writes handed to the disk so far, in program order. A buffer that is changed and then
written with `bwrite` changes in both. No other function of the kernel calls `bwrite`, and `bget`
never recycles a dirty buffer, so these lists are all that reaches the disk. -/

namespace Cs350.Log

open Cs350.Writes

/-! ## Blocks, headers and the cache -/

/-- `MAXOPBLOCKS`. -/
def maxOpBlocks : Nat := 10

/-- `LOGSIZE`. -/
def logSize : Nat := maxOpBlocks * 3

/-- A disk block, as its `BSIZE / 4` words. -/
abbrev Block := Fin 128 → Int

abbrev Disk := Nat → Block

/-- `struct logheader`: the entries in use (`n` of them) of an array of `LOGSIZE`. -/
@[ext]
structure LogHeader where
  block : List Nat
  length_le : block.length ≤ logSize

namespace LogHeader

def n (lh : LogHeader) : Nat := lh.block.length

/-- The header after `log.lh.n = 0`. -/
def empty : LogHeader := ⟨[], by decide⟩

/-- The header laid over the start of a block: `n` is word 0 and `block[i]` is word `i + 1`. The
    words after the last entry keep what the block had there. -/
def put (lh : LogHeader) (hb : Block) : Block :=
  fun i => if i = 0 then lh.n else (lh.block[i.val - 1]?).elim (hb i) (fun b => (b : Int))

/-- The header at the start of a block. A negative `n` makes every loop over the entries empty;
    copying more than `LOGSIZE` entries would write past the array, so there is no result. -/
def get (hb : Block) : Option LogHeader :=
  if h : hb 0 ≤ logSize then
    some ⟨(List.range (hb 0).toNat).map (fun i => (hb (Fin.ofNat 128 (i + 1))).toNat),
      by rw [List.length_map, List.length_range]; omega⟩
  else
    none

end LogHeader

/-- The buffer cache, and the block writes made so far. -/
structure Io where
  bread : Nat → Block
  writes : List (Nat × Block)

/-- Fill the buffer of block `b` with `data` and write it. -/
def Io.bwrite (io : Io) (b : Nat) (data : Block) : Io :=
  { bread := Function.update io.bread b data,
    writes := io.writes ++ [(b, data)] }

/-- After a reboot nothing is cached. -/
def Io.boot (d : Disk) : Io :=
  { bread := d, writes := [] }

/-! ## `log.c`

`start` is `log.start`, the block number of the header; entry `tail` of the log is block
`start + tail + 1`. -/

/-- Copy modified blocks from cache to log. -/
def writeLog (start : Nat) (lh : LogHeader) (io : Io) : Io :=
  lh.block.zipIdx.foldl (fun io p => io.bwrite (start + p.2 + 1) (io.bread p.1)) io

/-- Write in-memory log header to disk. -/
def writeHead (start : Nat) (lh : LogHeader) (io : Io) : Io :=
  io.bwrite start (lh.put (io.bread start))

/-- Copy committed blocks from log to their home location. -/
def installTrans (start : Nat) (lh : LogHeader) (io : Io) : Io :=
  lh.block.zipIdx.foldl (fun io p => io.bwrite p.1 (io.bread (start + p.2 + 1))) io

/-- Read the log header from disk into the in-memory log header. -/
def readHead (start : Nat) (io : Io) : Option LogHeader :=
  LogHeader.get (io.bread start)

def recoverFromLog (start : Nat) (io : Io) : Option Io :=
  (readHead start io).map fun lh => writeHead start .empty (installTrans start lh io)

def commit (start : Nat) (lh : LogHeader) (io : Io) : Io :=
  if 0 < lh.n then
    writeHead start .empty (installTrans start lh (writeHead start lh (writeLog start lh io)))
  else
    io

/-! ## Crashes -/

/-- The disk if the machine stops after the first `k` block writes. -/
def Io.crashAt (io : Io) (k : Nat) (d : Disk) : Disk :=
  applyWrites (io.writes.take k) d

/-- Reboot, and crash again after the first `k` block writes of the recovery. -/
def crashedRecovery (start : Nat) (d : Disk) (k : Nat) : Option Disk :=
  (recoverFromLog start (Io.boot d)).map fun io => io.crashAt k d

/-- Reboot, and recover without a crash. -/
def completeRecovery (start : Nat) (d : Disk) : Option Disk :=
  (recoverFromLog start (Io.boot d)).map fun io => applyWrites io.writes d

/-- One crash for each element of `ks` during recovery, then a complete recovery. -/
def reboots (start : Nat) (ks : List Nat) (d : Disk) : Option Disk :=
  (ks.foldlM (crashedRecovery start) d).bind (completeRecovery start)

end Cs350.Log
