import LibMp.Progress

/- The posting calls of mp.c: sends, receives, puts and gets the CPU posts.
   Each returns its return code and what it stored in `*req_t`, if anything. -/
namespace LibMp
variable (cfg : Config)

/-- An `int` stored into a 32-bit length. -/
def len32 (size : Int) : Nat := (size % 2 ^ 32).toNat

/-- A `size_t` stored into an `int`. -/
def toInt (n : Nat) : Int := Int.bmod n (2 ^ 32)

theorem toInt_eq_self {n : Nat} (h : n < 2 ^ 31) : toInt n = n :=
  Int.bmod_eq_of_le (by omega) (by omega)

/-- An `int` stored into a `uint64_t`. -/
def toUint64 (z : Int) : Nat := (z % 2 ^ 64).toNat

/-- `struct iovec`. -/
structure Iovec where
  base : Nat
  len : Nat
  deriving DecidableEq, Repr

/-- The scatter/gather array of a vector call. -/
def sgvOf (v : List Iovec) (reg : Reg) : List Sge := v.map fun b => ⟨b.base, b.len % 2 ^ 32, reg.key⟩

/-- The address part of a send in UD mode; in RC mode the queue pair has it. -/
def sendDest (c : Nat) : Dest := if cfg.enableUd then .ud (cfg.ah c) (cfg.qpn c) 0 else .none

/-- The target of a put or get at displacement `displ` of a window. -/
def rdmaDest (win : Window) (c displ : Nat) : Dest :=
  .rdma ((win.basePtr c + displ) % 2 ^ 64) (win.rkey c)

/-- The work request of a scalar send. -/
def sendWr (c : Nat) (p : Ptr) (numSge : Nat) (sgList : SgList) : InWr :=
  .sr ⟨true, false, .expWrSend, p, numSge, sgList, sendDest cfg c⟩

/-- The work request of a put. -/
def putWr (p : Ptr) (win : Window) (c displ flags : Nat) : InWr :=
  .sr ⟨!nowait flags, inlined flags, .expWrRdmaWrite, p, 1, .sgEntry, rdmaDest win c displ⟩

/-- The work request of a get with opcode `op`. -/
def getWr (op : Opcode) (p : Ptr) (win : Window) (c displ : Nat) : InWr :=
  .sr ⟨true, false, op, p, 1, .sgEntry, rdmaDest win c displ⟩

namespace World
variable (w : World)

/-- The request at `p` becomes a scalar send of `buf`. -/
def buildSend (c : Nat) (p : Ptr) (buf : Nat) (size : Int) (reg : Reg) : World :=
  w.setReq p fun r => { r with
    inWr := sendWr cfg c p 1 .sgEntry, sgEntry := ⟨buf, len32 size, reg.key⟩ }

/-- The request at `p` becomes a send of the blocks `v`. -/
def buildSendv (c : Nat) (p : Ptr) (v : List Iovec) (reg : Reg) : World :=
  w.setReq p fun r => { r with inWr := sendWr cfg c p v.length .sgv, sgv := some (sgvOf v reg) }

/-- The request at `p` becomes a receive into `buf`. -/
def buildRecv (p : Ptr) (buf : Nat) (size : Int) (reg : Reg) : World :=
  w.setReq p fun r =>
    -- a UD receive stores the 40 bytes of the global routing header first
    if cfg.enableUd then { r with
      inWr := .rr ⟨p, 2, .udSgEntry⟩
      udSgEntry := (⟨cfg.udPadding, 40, cfg.udPaddingKey⟩, ⟨buf, len32 size, reg.key⟩) }
    else { r with inWr := .rr ⟨p, 1, .sgEntry⟩, sgEntry := ⟨buf, len32 size, reg.key⟩ }

/-- The request at `p` becomes a receive into the blocks `v`. -/
def buildRecvv (p : Ptr) (v : List Iovec) (reg : Reg) : World :=
  w.setReq p fun r => { r with inWr := .rr ⟨p, v.length, .sgv⟩, sgv := some (sgvOf v reg) }

/-- The request at `p` becomes a put of `src`. -/
def buildPut (c : Nat) (p : Ptr) (src : Nat) (size : Int) (reg : Reg) (displ : Nat) (win : Window)
    (flags : Nat) : World :=
  w.setReq p fun r => { r with
    flags := flags, inWr := putWr p win c displ flags, sgEntry := ⟨src, len32 size, reg.key⟩ }

/-- The request at `p` becomes a get into `dst`. -/
def buildGet (op : Opcode) (c : Nat) (p : Ptr) (dst : Nat) (size : Int) (reg : Reg) (displ : Nat)
    (win : Window) : World :=
  w.setReq p fun r => { r with inWr := getWr op p win c displ, sgEntry := ⟨dst, len32 size, reg.key⟩ }

end World

/-- `mp_irecv`. -/
def mpIrecv (buf : Nat) (size : Int) (peer : Nat) (reg : Reg) : M (Int × Option Ptr) := do
  let c ← clientOf cfg peer
  let p ← newStreamRequest .mpIrecv c (cfg.mpiRank c) .recv .pendingNowait
  update fun w => w.buildRecv cfg p buf size reg
  let ret ← mpPostRecv cfg c p
  if ret ≠ 0 then return (ret, none)
  if !cfg.useEventSync then
    let ret ← gdsPrepareWaitCq c .rx p
    if ret ≠ 0 then return (ret, none)
  return (0, some p)

/-- `mp_irecvv`. -/
def mpIrecvv (v : List Iovec) (peer : Nat) (reg : Reg) : M (Int × Option Ptr) := do
  if v.length > cfg.ibMaxSge then return (mpFailure, none)
  let c ← clientOf cfg peer
  let p ← newStreamRequest .mpIrecvv c (cfg.mpiRank c) .recv .pendingNowait
  update fun w => w.buildRecvv p v reg
  let ret ← gdsPostRecv c p
  if ret ≠ 0 then return (ret, none)
  if !cfg.useEventSync then
    let ret ← gdsPrepareWaitCq c .rx p
    if ret ≠ 0 then return (ret, none)
  return (0, some p)

/-- `mp_isend`. -/
def mpIsend (buf : Nat) (size : Int) (peer : Nat) (reg : Reg) : M (Int × Option Ptr) := do
  let c ← clientOf cfg peer
  let p ← newStreamRequest .mpIsend c (cfg.mpiRank c) .send .pendingNowait
  update fun w => w.buildSend cfg c p buf size reg
  let ret ← mpPostSend cfg c p
  if ret ≠ 0 then return (ret, none)
  if !cfg.useEventSync then
    let ret ← gdsPrepareWaitCq c .tx p
    if ret ≠ 0 then return (ret, none)
  return (0, some p)

/-- `mp_isendv`. It posts without retrying, and it does not store the request
in `*req_t`. -/
def mpIsendv (v : List Iovec) (peer : Nat) (reg : Reg) : M (Int × Option Ptr) := do
  if v.length > cfg.ibMaxSge then return (mpFailure, none)
  let c ← clientOf cfg peer
  let p ← newStreamRequest .mpIsendv c (cfg.mpiRank c) .send .pendingNowait
  update fun w => w.buildSendv cfg c p v reg
  let ret ← gdsPostSend c p
  if ret ≠ 0 then return (ret, none)
  if !cfg.useEventSync then
    let ret ← gdsPrepareWaitCq c .tx p
    if ret ≠ 0 then return (ret, none)
  return (0, none)

/-- `mp_iput`. The wait info is prepared in both modes, unless the put is not
to be waited for. -/
def mpIput (src : Nat) (size : Int) (reg : Reg) (peer displ : Nat) (win : Window) (flags : Nat) :
    M (Int × Option Ptr) := do
  if cfg.enableUd then return (mpFailure, none)
  let c ← clientOf cfg peer
  Prog.require (displ < win.rsize c) .assertDispl
  let p ← newStreamRequest .mpIput c (cfg.mpiRank c) .rdma .pendingNowait
  update fun w => w.buildPut c p src size reg displ win flags
  let ret ← mpPostSend cfg c p
  if ret ≠ 0 then return (ret, none)
  if !nowait flags then
    let ret ← gdsPrepareWaitCq c .tx p
    if ret ≠ 0 then return (ret, none)
  return (0, some p)

/-- `mp_iget`. It posts without retrying. -/
def mpIget (dst : Nat) (size : Int) (reg : Reg) (peer displ : Nat) (win : Window) :
    M (Int × Option Ptr) := do
  if cfg.enableUd then return (mpFailure, none)
  let c ← clientOf cfg peer
  Prog.require (displ < win.rsize c) .assertDispl
  let p ← newStreamRequest .mpIget c (cfg.mpiRank c) .rdma .pendingNowait
  update fun w => w.buildGet .wrRdmaRead c p dst size reg displ win
  let ret ← gdsPostSend c p
  if ret ≠ 0 then return (ret, none)
  let ret ← gdsPrepareWaitCq c .tx p
  if ret ≠ 0 then return (ret, none)
  return (0, some p)

end LibMp
