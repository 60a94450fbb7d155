import LibMp.Api

/- The COMM library (comm.cpp): a layer over libmp for one rank of an MPI job.

   It adds two things. The table `reqs` collects the request of every posting
   call, for `comm_progress` and `comm_flush`; next to each entry stands the
   operation that held the request when it was recorded, which the source does
   not store. The ready tables are counters between every two ranks: a rank
   puts the next value of its `remote_ready_values` into the slot of its own
   rank in `ready_table` of the other, which waits for the next value of its
   `ready_values`.

   `MP_CHECK` and `COMM_CHECK` end the process on an error. What arrives in
   `ready_table` from other ranks is read off `arrivals`, one list for each
   time the CPU looks at the table. The state has the registrations of the
   callers and the blocks of descriptors for kernels; what fills the blocks is
   in `Kernel`. -/
namespace LibMp

def maxRanks : Nat := 128
def maxReqs : Nat := 16384

/-- What `comm_init` fixes: the size of the job, the own rank, the window of
the ready tables, the registration of `remote_ready_values`, and where
`remote_ready_values` and `ready_table` stand in memory. -/
structure CommConfig where
  mp : Config
  commSize : Nat
  commRank : Nat
  readyTableWin : Window
  remoteReadyValues : Nat
  remoteReadyValuesReg : Reg
  readyTable : Nat := 0

/-! ## The ready tables -/

/-- `ready_table`, `ready_values` and `remote_ready_values`, by rank: words of
32 bits. -/
structure ReadyTables where
  readyTable : Nat → Nat
  readyValues : Nat → Nat
  remoteReadyValues : Nat → Nat

namespace ReadyTables
variable (t : ReadyTables) (rank : Nat)

/-- The tables `comm_init` makes. -/
def init : ReadyTables := ⟨fun _ => 0, fun _ => 1, fun _ => 1⟩

/-- `ACCESS_ONCE(ready_table[rank]) < ready_values[rank]`, on unsigned words. -/
def notReady : Bool := t.readyTable rank < t.readyValues rank

/-- `ready_values[rank]++`. -/
def nextExpected : ReadyTables :=
  { t with readyValues := Function.update t.readyValues rank ((t.readyValues rank + 1) % 2 ^ 32) }

/-- `atomic_inc(&remote_ready_values[rank])`. -/
def nextSent : ReadyTables :=
  { t with remoteReadyValues := Function.update t.remoteReadyValues rank ((t.remoteReadyValues rank + 1) % 2 ^ 32) }

/-- A word of `ready_table` is written from outside. -/
def arrive (v : Nat) : ReadyTables := { t with readyTable := Function.update t.readyTable rank v }

end ReadyTables

/-! ## The state of a rank -/

/-- An entry of `reqs`; `peer` and `op` name the operation it was recorded for. -/
structure Entry where
  req : Ptr
  peer : Nat
  op : Nat
  deriving DecidableEq, Repr

/-- The `comm_reg_t` variables of the callers, by address, and the
registrations: how many were made, which are not undone, and the key of each. -/
structure Registrations where
  creg : Nat → Option Nat := fun _ => none
  made : Nat := 0
  opened : List Nat := []
  key : Nat → Nat := fun _ => 0

namespace Registrations
variable (r : Registrations) (creg : Nat)

/-- What `mp_register` does: a new registration, kept in `*creg`. -/
def register : Registrations :=
  { r with creg := Function.update r.creg creg (some r.made), made := r.made + 1, opened := r.made :: r.opened }

/-- What `mp_deregister` does to registration `h`, and `*creg = NULL`. -/
def deregister (h : Nat) : Registrations :=
  { r with creg := Function.update r.creg creg none, opened := r.opened.erase h }

/-- The registration the posting calls of libmp get. -/
def reg : Reg := ⟨((r.creg creg).map r.key).getD 0⟩

end Registrations

/-- The three arrays of `struct comm_dev_descs`. -/
inductive DescKind where
  | ready
  | tx
  | wait
  deriving DecidableEq, Repr

/-- `isem32_t`, and `send_desc_t` and `wait_desc_t` by the info they are made
from. -/
inductive KernelDesc where
  | isem32 (ptr value : Nat)
  | send (info : Option SendInfo)
  | wait (info : Option WaitInfo)
  deriving DecidableEq, Repr

/-- A descriptor of zeros. -/
def KernelDesc.zero : DescKind → KernelDesc
  | .ready => .isem32 0 0
  | .tx => .send none
  | .wait => .wait none

/-- `struct comm_dev_descs`: `n_ready`, `n_tx` and `n_wait`, and the arrays. -/
structure CommDevDescs where
  n : DescKind → Nat := fun _ => 0
  descs : DescKind → Nat → KernelDesc := fun k _ => .zero k

/-- `pdreqs` is allocated at the first use. -/
structure Comm where
  sys : Sys
  ready : ReadyTables
  reqs : List Entry
  arrivals : List (List (Nat × Nat))
  regs : Registrations := {}
  pdreqs : Option (Nat → CommDevDescs) := none
  dreqIdx : Nat := 0

/-- What `comm_init` leaves. -/
def Comm.init : Comm := { sys := ⟨World.init, []⟩, ready := .init, reqs := [], arrivals := [] }

/-- The rank, with what the next call gets from outside. -/
def Comm.given (c : Comm) (tape : List Ans) (arrivals : List (List (Nat × Nat))) : Comm :=
  { c with sys := ⟨c.sys.w, tape⟩, arrivals := arrivals }

/-- Why a call of COMM does not come back. -/
inductive CommStop where
  /-- libmp does not come back -/
  | mp (e : Stop)
  /-- the `exit` of `MP_CHECK` and `COMM_CHECK` -/
  | exitCheck
  /-- a write past the end of an array of descriptors -/
  | overrun
  /-- the `exit(1)` of `comm_size_of_mpi_type` -/
  | exitType
  /-- `assert(rank < comm_size)` -/
  | assertRank
  /-- `assert(n_reqs < MAX_REQS)` -/
  | assertReqs
  deriving DecidableEq, Repr

abbrev CM := Prog Comm CommStop

/-- A call of libmp. -/
def mpCall {α : Type} (m : M α) : CM α := fun s =>
  match m s.sys with
  | (.ok a, y) => (.ok a, { s with sys := y })
  | (.error e, y) => (.error (.mp e), { s with sys := y })

/-- `MP_CHECK` and `COMM_CHECK`. -/
def check (result : Int) : CM Unit := Prog.require (result = 0) .exitCheck

theorem mpCall_ok {α : Type} {m : M α} {a : α} {s s' : Comm} (h : mpCall m s = (.ok a, s')) :
    ∃ y, m s.sys = (.ok a, y) ∧ s' = { s with sys := y } := by
  unfold mpCall at h
  cases hm : m s.sys with
  | mk r y =>
    rw [hm] at h
    cases r with
    | ok b =>
      cases h
      exact ⟨y, rfl, rfl⟩
    | error e => cases h

theorem check_ok {result : Int} {u : Unit} {s s' : Comm} (h : check result s = (.ok u, s')) : result = 0 ∧ s' = s := by
  obtain ⟨hr, hs⟩ := require_ok h
  exact ⟨of_decide_eq_true hr, hs⟩

theorem mpCall_bind_ok {α β : Type} {m : M α} {g : α → CM β} {x : β} {s s' : Comm}
    (h : (mpCall m >>= g) s = (.ok x, s')) : ∃ a y, m s.sys = (.ok a, y) ∧ g a { s with sys := y } = (.ok x, s') := by
  obtain ⟨a, s₁, h₁, h₂⟩ := Prog.bind_eq_ok h
  obtain ⟨y, hy, rfl⟩ := mpCall_ok h₁
  exact ⟨a, y, hy, h₂⟩

theorem check_bind_ok {β : Type} {result : Int} {g : Unit → CM β} {x : β} {s s' : Comm}
    (h : (check result >>= g) s = (.ok x, s')) : result = 0 ∧ g () s = (.ok x, s') := by
  obtain ⟨_, s₁, h₁, h₂⟩ := Prog.bind_eq_ok h
  obtain ⟨hr, rfl⟩ := check_ok h₁
  exact ⟨hr, h₂⟩

def setReady (g : ReadyTables → ReadyTables) : CM Unit := Prog.modify fun s => { s with ready := g s.ready }

variable (cc : CommConfig)

/-- `comm_mpi_rank_to_peer`: peers are named by their rank. -/
def commMpiRankToPeer (rank : Nat) : CM Nat := do
  Prog.require (rank < cc.commSize) .assertRank
  return rank

theorem commMpiRankToPeer_ok {cc : CommConfig} {rank peer : Nat} {c c' : Comm}
    (h : commMpiRankToPeer cc rank c = (.ok peer, c')) : peer = rank ∧ rank < cc.commSize ∧ c' = c := by
  unfold commMpiRankToPeer at h
  obtain ⟨hr, h₂⟩ := require_bind_ok h
  cases h₂
  exact ⟨rfl, of_decide_eq_true hr, rfl⟩

theorem commMpiRankToPeer_bind_ok {cc : CommConfig} {β : Type} {rank : Nat} {g : Nat → CM β} {x : β} {c c' : Comm}
    (h : (commMpiRankToPeer cc rank >>= g) c = (.ok x, c')) : rank < cc.commSize ∧ g rank c = (.ok x, c') := by
  obtain ⟨_, c₁, h₁, h₂⟩ := Prog.bind_eq_ok h
  obtain ⟨rfl, hr, rfl⟩ := commMpiRankToPeer_ok h₁
  exact ⟨hr, h₂⟩

/-- `comm_track_request`. -/
def commTrackRequest (p : Ptr) : CM Unit := do
  let s ← Prog.get
  Prog.require (s.reqs.length < maxReqs) .assertReqs
  Prog.modify fun s => { s with reqs := s.reqs ++ [⟨p, (s.sys.w.mem p).peer, (s.sys.w.mem p).id⟩] }

/-! ## Sends and receives -/

/-- `MPI_Datatype`, as far as COMM knows it. -/
inductive MpiType where
  | double
  | float
  | char
  | int
  | other
  deriving DecidableEq, Repr

/-- `comm_size_of_mpi_type`. -/
def commSizeOfMpiType : MpiType → CM Nat
  | .double => return 8
  | .float => return 4
  | .char => return 1
  | .int => return 4
  | .other => Prog.stop .exitType

/-- `mp_register`: there is memory for the registration, and where `ibv_reg_mr`
returns NULL it spins. -/
def mpRegister : M Int := do
  let rc ← returnCode
  Prog.require (rc = 0) .spinning
  return 0

/-- `comm_register`: a buffer that is not registered is registered now. -/
def commRegister (size creg : Nat) : CM Int := do
  if size = 0 then return -einval
  let s ← Prog.get
  if s.regs.creg creg = none then
    let result ← mpCall mpRegister
    check result
    Prog.modify fun s => { s with regs := s.regs.register creg }
  return 0

/-- `comm_deregister`. -/
def commDeregister (creg : Nat) : CM Int := do
  let s ← Prog.get
  match s.regs.creg creg with
  | none => return 0
  | some h =>
    let result ← mpCall returnCode
    check result
    Prog.modify fun s => { s with regs := s.regs.deregister creg h }
    return 0

/-- What the posting calls do first: the number of bytes, the peer, and the
registration. -/
def commPrelude (size : Nat) (type : MpiType) (creg rank : Nat) : CM (Nat × Nat × Reg) := do
  let n ← commSizeOfMpiType type
  let nbytes := size * n % 2 ^ 64
  let peer ← commMpiRankToPeer cc rank
  let result ← commRegister nbytes creg
  check result
  let s ← Prog.get
  return (nbytes, peer, s.regs.reg creg)

/-- The common text of the posting calls: register, post, record. The number of
bytes becomes an `int`. A post that fails returns -1. -/
def commPost (size : Nat) (type : MpiType) (creg rank : Nat)
    (post : Int → Nat → Reg → M (Int × Option Ptr)) : CM (Int × Option Ptr) := do
  let (nbytes, peer, reg) ← commPrelude cc size type creg rank
  let (retcode, req) ← mpCall (post (toInt nbytes) peer reg)
  if retcode ≠ 0 then
    let _ ← commDeregister creg
    return (-1, none)
  match req with
  | none => return (0, none)
  | some p =>
    commTrackRequest p
    return (0, some p)

/-- `comm_irecv`. -/
def commIrecv (buf size : Nat) (type : MpiType) (creg srcRank : Nat) : CM (Int × Option Ptr) :=
  commPost cc size type creg srcRank fun n peer reg => mpIrecv cc.mp buf n peer reg

/-- `comm_isend`. -/
def commIsend (buf size : Nat) (type : MpiType) (creg destRank : Nat) : CM (Int × Option Ptr) :=
  commPost cc size type creg destRank fun n peer reg => mpIsend cc.mp buf n peer reg

/-- `comm_isend_on_stream`. -/
def commIsendOnStream (buf size : Nat) (type : MpiType) (creg destRank : Nat) (st : Stream) :
    CM (Int × Option Ptr) :=
  commPost cc size type creg destRank fun n peer reg => mpIsendOnStream cc.mp buf n peer reg st

/-! ## Ready notifications -/

/-- The arguments of the put both calls make: four bytes, the value for `rank`,
to the slot of the own rank. -/
def readyPut (rank : Nat) {α : Type} (put : Nat → Int → Reg → Nat → Nat → Window → α) : α :=
  put (cc.remoteReadyValues + 4 * rank) 4 cc.remoteReadyValuesReg rank (cc.commRank * 4) cc.readyTableWin

/-- `comm_send_ready_on_stream`: its request is recorded. -/
def commSendReadyOnStream (rank : Nat) (st : Stream) : CM (Int × Option Ptr) := do
  let peer ← commMpiRankToPeer cc rank
  let (result, req) ← mpCall (readyPut cc peer fun src size reg peer displ win =>
    mpIputOnStream cc.mp src size reg peer displ win mpPutInline st)
  check result
  match req with
  | none => return (0, none)
  | some p =>
    commTrackRequest p
    setReady fun t => t.nextSent rank
    return (0, some p)

/-- `comm_send_ready`: its request is not to be waited for, and not recorded. -/
def commSendReady (rank : Nat) : CM (Int × Option Ptr) := do
  let peer ← commMpiRankToPeer cc rank
  let (result, req) ← mpCall (readyPut cc peer fun src size reg peer displ win =>
    mpIput cc.mp src size reg peer displ win (mpPutInline ||| mpPutNowait))
  check result
  setReady fun t => t.nextSent rank
  return (0, req)

/-! ## Progress and flush -/

def entries (l : List Entry) : List Ptr := l.map Entry.req

/-- `comm_progress`. -/
def commProgress : CM Int := do
  let s ← Prog.get
  Prog.require (s.reqs.length < maxReqs) .assertReqs
  mpCall (mpProgressAll cc.mp (entries s.reqs))

/-- `comm_flush`: the table is empty afterwards, whatever `mp_wait_all` returns. -/
def commFlush : CM Int := do
  let s ← Prog.get
  if s.reqs = [] then return 0
  Prog.require (s.reqs.length < maxReqs) .assertReqs
  let ret ← mpCall (mpWaitAll cc.mp (entries s.reqs))
  Prog.modify fun s => { s with reqs := [] }
  return ret

/-- What has arrived in `ready_table` by the next look at it. -/
def look : CM ReadyTables := fun s =>
  match s.arrivals with
  | [] => (.ok s.ready, s)
  | a :: rest =>
    let t := a.foldl (fun t x => t.arrive x.1 x.2) s.ready
    (.ok t, { s with ready := t, arrivals := rest })

/-- The loop of `comm_wait_ready`: after more than 10000 looks it progresses
the recorded requests. -/
def waitReadyLoop (rank : Nat) : Nat → Nat → CM Unit
  | 0, _ => Prog.stop (.mp .spinning)
  | fuel + 1, cnt => do
    let t ← look
    if t.notReady rank then
      if cnt + 1 > 10000 then
        let _ ← commProgress cc
        waitReadyLoop rank fuel 0
      else waitReadyLoop rank fuel (cnt + 1)
    else return ()

/-- `comm_wait_ready`. -/
def commWaitReady (rank : Nat) : CM Int := do
  let _ ← commMpiRankToPeer cc rank
  let s ← Prog.get
  waitReadyLoop cc rank (s.arrivals.length + 1) 0
  setReady fun t => t.nextExpected rank
  return 0

/-- `comm_test_ready`: whether the table was ready, and the value is used up then. -/
def commTestReady (rank : Nat) : CM (Int × Bool) := do
  let _ ← commMpiRankToPeer cc rank
  let t ← look
  if t.notReady rank then return (0, false)
  setReady fun t => t.nextExpected rank
  return (0, true)

/-- `comm_wait_ready_on_stream`. -/
def commWaitReadyOnStream (rank : Nat) (st : Stream) : CM Int := do
  let _ ← commMpiRankToPeer cc rank
  let s ← Prog.get
  let result ← mpCall (mpWait32OnStream (cc.readyTable + 4 * rank) (s.ready.readyValues rank) mpWaitGeq st)
  check result
  setReady fun t => t.nextExpected rank
  return 0

/-- What `comm_prepare_wait_ready` does with the ready table (the whole call is in
`Kernel`): the semaphore it hands to a kernel, where the word is and the value to
wait for. -/
def prepareReadySem (rank : Nat) : CM (Int × Nat × Nat) := do
  let _ ← commMpiRankToPeer cc rank
  let s ← Prog.get
  let result ← mpCall returnCode
  check result
  setReady fun t => t.nextExpected rank
  return (0, cc.readyTable + 4 * rank, s.ready.readyValues rank)

/-! ## Waiting for requests -/

/-- `comm_wait_all`; the handles of the caller are cleared. -/
def commWaitAll (reqs : List Ptr) : CM Int := do
  let result ← mpCall (mpWaitAll cc.mp reqs)
  check result
  return 0

/-- `comm_wait`. -/
def commWait (req : Ptr) : CM Int := do
  let result ← mpCall (mpWait cc.mp req)
  check result
  return 0

/-- The branch of `comm_wait_all_on_stream` for one request. -/
def commWaitOneOnStream (req : Ptr) (st : Stream) : CM Int := do
  let result ← mpCall (mpWaitOnStream cc.mp req st)
  check result
  return 0

/-- The general branch of `comm_wait_all_on_stream`. -/
def commWaitManyOnStream (reqs : List Ptr) (st : Stream) : CM Int := do
  let result ← mpCall (mpWaitAllOnStream cc.mp reqs st)
  check result
  return 0

/-- `comm_wait_all_on_stream`. -/
def commWaitAllOnStream (reqs : List Ptr) (st : Stream) : CM Int :=
  match reqs with
  | [req] => commWaitOneOnStream cc req st
  | _ => commWaitManyOnStream cc reqs st

end LibMp
