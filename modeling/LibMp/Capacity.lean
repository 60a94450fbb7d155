import LibMp.Refused
import LibMp.Transfers

/- The capacity of the table `reqs` of COMM.

   `comm_track_request` adds an entry while `n_reqs < MAX_REQS`, so the table can
   become full, and then `comm_progress` and `comm_flush` stop at the same
   assertion. A call either records one request or adds nothing, which is all
   that the runs of the calls need. -/
namespace LibMp
variable {cc : CommConfig}

/-! ## Programs that leave the table alone -/

def SameTable (c c' : Comm) : Prop := c'.reqs = c.reqs

instance : IsPreorder Comm SameTable where
  refl _ := rfl
  trans _ _ _ h h' := h'.trans h

/-- Whatever the program does, the table is as it was. -/
abbrev LeavesTable {α : Type} (m : CM α) : Prop := Prog.Within SameTable m

namespace LeavesTable

theorem reqs {α : Type} {m : CM α} {r : Except CommStop α} {c c' : Comm} (hm : LeavesTable m) (h : m c = (r, c')) :
    c'.reqs = c.reqs := by
  have hs := hm c
  rw [h] at hs
  exact hs

theorem mpCall {α : Type} (m : M α) : LeavesTable (mpCall m) := by
  intro c
  unfold LibMp.mpCall
  split <;> rfl

theorem check (result : Int) : LeavesTable (check result) := .require _ _

/-- A call of libmp whose error ends the process. -/
theorem checked (m : M Int) {α : Type} {f : CM α} (hf : LeavesTable f) : LeavesTable (do
    let result ← LibMp.mpCall m
    LibMp.check result
    f) :=
  .bind (mpCall m) fun _ => .bind (check _) fun _ => hf

theorem setReady (g : ReadyTables → ReadyTables) : LeavesTable (setReady g) := .modify fun _ => rfl

theorem look : LeavesTable look := by
  intro c
  unfold LibMp.look
  split <;> rfl

theorem peer (rank : Nat) : LeavesTable (commMpiRankToPeer cc rank) := .bind (.require _ _) fun _ => .pure _

theorem register (size creg : Nat) : LeavesTable (commRegister size creg) := by
  refine .ite (.pure _) (.bind .get fun s => .ite ?_ (.pure _))
  exact checked _ (.bind (.modify fun _ => rfl) fun _ => .pure _)

theorem deregister (creg : Nat) : LeavesTable (commDeregister creg) := by
  refine .bind .get fun s => ?_
  cases s.regs.creg creg with
  | none => exact .pure _
  | some h => exact checked _ (.bind (.modify fun _ => rfl) fun _ => .pure _)

theorem dreqs : LeavesTable dreqs := by
  refine .bind .get fun s => ?_
  cases s.pdreqs with
  | none => exact checked _ (.bind (.modify fun _ => rfl) fun _ => .pure _)
  | some blocks => exact .pure _

theorem setDreqs (g : CommDevDescs → CommDevDescs) : LeavesTable (setDreqs g) := .modify fun _ => rfl

theorem nextDesc (k : DescKind) : LeavesTable (nextDesc k) := .bind dreqs fun _ => .bind (setDreqs _) fun _ => .pure _

theorem storeDesc (k : DescKind) (i : Nat) (x : KernelDesc) : LeavesTable (storeDesc k i x) :=
  .bind (.require _ _) fun _ => setDreqs _

theorem prepareWaitReady (rank : Nat) : LeavesTable (Kernel.commPrepareWaitReady cc rank) := by
  have hinner : ∀ peer, LeavesTable (prepareReadySem cc peer) := fun peer' =>
    .bind (peer peer') fun _ => .bind .get fun _ => checked _ (.bind (setReady _) fun _ => .pure _)
  exact .bind (peer rank) fun _ => .bind (nextDesc _) fun _ => .bind (hinner _) fun _ =>
    .bind (storeDesc _ _ _) fun _ => .pure _

theorem prepareWaitAll (reqs : List Ptr) : LeavesTable (Kernel.commPrepareWaitAll cc reqs) := by
  induction reqs with
  | nil => exact .pure _
  | cons p reqs ih =>
    refine .bind (nextDesc _) fun _ => .bind (mpCall _) fun _ => .ite (.pure _) ?_
    exact .bind .get fun _ => .bind (storeDesc _ _ _) fun _ => ih

theorem preparedRequests : LeavesTable Kernel.commPreparedRequests :=
  .bind dreqs fun _ => .bind .get fun _ => .bind (.modify fun _ => rfl) fun _ => .bind dreqs fun _ =>
    .bind (setDreqs _) fun _ => .pure _

theorem sendReady (rank : Nat) : LeavesTable (commSendReady cc rank) :=
  .bind (peer rank) fun _ => .bind (mpCall _) fun _ => .bind (check _) fun _ => .bind (setReady _) fun _ => .pure _

theorem progress : LeavesTable (commProgress cc) := .bind .get fun _ => .bind (.require _ _) fun _ => mpCall _

theorem waitReadyLoop (rank fuel cnt : Nat) : LeavesTable (waitReadyLoop cc rank fuel cnt) := by
  induction fuel generalizing cnt with
  | zero => exact .stop _
  | succ fuel ih =>
    exact .bind look fun _ => .ite (.ite (.bind progress fun _ => ih 0) (ih _)) (.pure _)

theorem waitReady (rank : Nat) : LeavesTable (commWaitReady cc rank) :=
  .bind (peer rank) fun _ => .bind .get fun _ => .bind (waitReadyLoop _ _ _) fun _ => .bind (setReady _) fun _ => .pure _

theorem testReady (rank : Nat) : LeavesTable (commTestReady cc rank) :=
  .bind (peer rank) fun _ => .bind look fun _ => .ite (.pure _) (.bind (setReady _) fun _ => .pure _)

theorem waitReadyOnStream (rank : Nat) (st : Stream) : LeavesTable (commWaitReadyOnStream cc rank st) :=
  .bind (peer rank) fun _ => .bind .get fun _ => checked _ (.bind (setReady _) fun _ => .pure _)

theorem waitAllOnStream (reqs : List Ptr) (st : Stream) : LeavesTable (commWaitAllOnStream cc reqs st) := by
  unfold commWaitAllOnStream
  split
  · exact checked _ (.pure _)
  · exact checked _ (.pure _)

end LeavesTable

/-! ## The calls -/

/-- The calls of COMM after `comm_init`. -/
inductive CommCall where
  | transfer (t : Transfer)
  | sendReady (rank : Nat)
  | sendReadyOnStream (rank : Nat) (st : Stream)
  | waitReady (rank : Nat)
  | testReady (rank : Nat)
  | waitReadyOnStream (rank : Nat) (st : Stream)
  | wait (req : Ptr)
  | waitAll (reqs : List Ptr)
  | waitAllOnStream (reqs : List Ptr) (st : Stream)
  | progress
  | flush
  | prepareWaitReady (rank : Nat)
  | prepareWaitAll (reqs : List Ptr)
  | preparedRequests
  | register (size creg : Nat)
  | deregister (creg : Nat)

namespace CommCall

/-- The program of a call: its return code, and the request it stores. -/
def run (cc : CommConfig) : CommCall → CM (Int × Option Ptr)
  | transfer t => t.run cc
  | sendReady rank => commSendReady cc rank
  | sendReadyOnStream rank st => commSendReadyOnStream cc rank st
  | waitReady rank => do return (← commWaitReady cc rank, none)
  | testReady rank => do return ((← commTestReady cc rank).1, none)
  | waitReadyOnStream rank st => do return (← commWaitReadyOnStream cc rank st, none)
  | wait req => do return (← commWait cc req, none)
  | waitAll reqs => do return (← commWaitAll cc reqs, none)
  | waitAllOnStream reqs st => do return (← commWaitAllOnStream cc reqs st, none)
  | progress => do return (← commProgress cc, none)
  | flush => do return (← commFlush cc, none)
  | prepareWaitReady rank => do return (← Kernel.commPrepareWaitReady cc rank, none)
  | prepareWaitAll reqs => do return (← Kernel.commPrepareWaitAll cc reqs, none)
  | preparedRequests => do
    let _ ← Kernel.commPreparedRequests
    return (0, none)
  | register size creg => do return (← commRegister size creg, none)
  | deregister creg => do return (← commDeregister creg, none)

/-- Whether a call with this result has recorded its request: the posting calls
do, but for `comm_send_ready`. -/
def records : CommCall → Int × Option Ptr → Bool
  | transfer _, x => x.2.isSome
  | sendReadyOnStream .., x => x.2.isSome
  | _, _ => false

/-- What a call does to the number of entries. -/
def Counts (call : CommCall) (x : Int × Option Ptr) (c c' : Comm) : Prop :=
  if call.records x then c'.reqs.length = c.reqs.length + 1 else c'.reqs.length ≤ c.reqs.length

variable {call : CommCall} {x : Int × Option Ptr} {c c' : Comm}

theorem counts_less (hrec : call.records x = false) (h : c'.reqs.length ≤ c.reqs.length) : call.Counts x c c' := by
  rwa [Counts, if_neg (by simp [hrec])]

theorem counts_same (hrec : call.records x = false) (h : c'.reqs = c.reqs) : call.Counts x c c' :=
  counts_less hrec (by rw [h])

theorem counts_one {e : Entry} (hrec : call.records x = true) (h : c'.reqs = c.reqs ++ [e]) : call.Counts x c c' := by
  rw [Counts, if_pos hrec, h]
  exact List.length_append ..

theorem counts_leaves {m : CM Int} (hm : LeavesTable m) (hrec : call.records x = false)
    (h : (do return (← m, none) : CM (Int × Option Ptr)) c = (.ok x, c')) : call.Counts x c c' := by
  obtain ⟨ret, c₁, h₁, h₂⟩ := Prog.bind_eq_ok h
  cases h₂
  exact counts_same hrec (hm.reqs h₁)

theorem counts_transfer {t : Transfer} (h : t.run cc c = (.ok x, c')) : (transfer t).Counts x c c' := by
  cases Transfer.ends h with
  | refused => exact counts_same rfl rfl
  | undescribed _ _ _ _ hreqs => exact counts_same rfl hreqs
  | posted _ _ _ hreqs => exact counts_one rfl hreqs

theorem counts_sendReadyOnStream {rank : Nat} {st : Stream} (h : commSendReadyOnStream cc rank st c = (.ok x, c')) :
    (sendReadyOnStream rank st).Counts x c c' := by
  unfold commSendReadyOnStream at h
  obtain ⟨_, c₁, h₁, h₂⟩ := Prog.bind_eq_ok h
  have hreqs₁ := (LeavesTable.peer rank).reqs h₁
  obtain ⟨⟨result, req⟩, c₂, h₃, h₄⟩ := Prog.bind_eq_ok h₂
  have hreqs₂ := (LeavesTable.mpCall _).reqs h₃
  obtain ⟨_, c₃, h₅, h₆⟩ := Prog.bind_eq_ok h₄
  have hreqs₃ := (LeavesTable.check result).reqs h₅
  have hreqs : c₃.reqs = c.reqs := hreqs₃.trans (hreqs₂.trans hreqs₁)
  cases req with
  | none =>
    cases h₆
    exact counts_same rfl hreqs
  | some p =>
    obtain ⟨_, c₄, h₇, h₈⟩ := Prog.bind_eq_ok h₆
    obtain ⟨-, rfl⟩ := (Prog.wp_ok h₇).mp (commTrackRequest_spec p)
    cases h₈
    exact counts_one rfl (congrArg (· ++ _) hreqs)

theorem counts_flush {ret : Int} (h : commFlush cc c = (.ok ret, c')) : flush.Counts (ret, none) c c' := by
  refine counts_less rfl ?_
  rw [(commFlush_did h).2]
  exact Nat.zero_le _

/-- A call records one request, or it adds nothing to the table. -/
theorem counts (h : call.run cc c = (.ok x, c')) : call.Counts x c c' := by
  cases call with
  | transfer t => exact counts_transfer h
  | sendReady rank => exact counts_same rfl ((LeavesTable.sendReady rank).reqs h)
  | sendReadyOnStream rank st => exact counts_sendReadyOnStream h
  | waitReady rank => exact counts_leaves (.waitReady rank) rfl h
  | testReady rank =>
    obtain ⟨y, c₁, h₁, h₂⟩ := Prog.bind_eq_ok h
    cases h₂
    exact counts_same rfl ((LeavesTable.testReady rank).reqs h₁)
  | waitReadyOnStream rank st => exact counts_leaves (.waitReadyOnStream rank st) rfl h
  | wait req => exact counts_leaves (.checked _ (.pure _)) rfl h
  | waitAll reqs => exact counts_leaves (.checked _ (.pure _)) rfl h
  | waitAllOnStream reqs st => exact counts_leaves (.waitAllOnStream reqs st) rfl h
  | progress => exact counts_leaves .progress rfl h
  | flush =>
    obtain ⟨ret, c₁, h₁, h₂⟩ := Prog.bind_eq_ok h
    cases h₂
    exact counts_flush h₁
  | prepareWaitReady rank => exact counts_leaves (.prepareWaitReady rank) rfl h
  | prepareWaitAll reqs => exact counts_leaves (.prepareWaitAll reqs) rfl h
  | preparedRequests =>
    obtain ⟨b, c₁, h₁, h₂⟩ := Prog.bind_eq_ok h
    cases h₂
    exact counts_same rfl (LeavesTable.preparedRequests.reqs h₁)
  | register size creg => exact counts_leaves (.register size creg) rfl h
  | deregister creg => exact counts_leaves (.deregister creg) rfl h

end CommCall

/-! ## Draining -/

/-- With whatever answers: `comm_progress`, also inside `comm_wait_ready`, and
`comm_flush` pass their assertion, and a request can be recorded after a flush. -/
structure Drains (cc : CommConfig) (c : Comm) : Prop where
  progress : ∀ tape arrivals, (commProgress cc (c.given tape arrivals)).1 ≠ .error .assertReqs
  waitReady : ∀ rank tape arrivals, (commWaitReady cc rank (c.given tape arrivals)).1 ≠ .error .assertReqs
  flush : ∀ tape arrivals, (commFlush cc (c.given tape arrivals)).1 ≠ .error .assertReqs
  again : ∀ tape arrivals ret c' p, commFlush cc (c.given tape arrivals) = (.ok ret, c') →
    (commTrackRequest p c').1 = .ok ()

/-- The stops that are not the assertion on the table. -/
def NotFull (e : CommStop) (_ : Comm) : Prop := e ≠ .assertReqs

theorem ne_of_wp {α : Type} {m : CM α} {Q : α → Comm → Prop} {c : Comm} (h : Prog.wp m NotFull Q c) :
    (m c).1 ≠ .error .assertReqs := by
  unfold Prog.wp at h
  split at h
  · rename_i hm
    rw [hm]
    nofun
  · rename_i hm
    rw [hm]
    rintro ⟨⟩
    exact h rfl

theorem look_spec {c : Comm} : Prog.wp look NotFull (fun _ c' => c'.reqs = c.reqs) c := by
  unfold Prog.wp look
  cases c.arrivals <;> rfl

section Room
variable {c : Comm} (hroom : c.reqs.length < maxReqs)
include hroom

theorem commProgress_spec : Prog.wp (commProgress cc) NotFull (fun _ c' => c'.reqs = c.reqs) c := by
  rw [commProgress, Prog.wp_bind, Prog.wp_get, Prog.wp_bind, Prog.wp_require, if_pos (decide_eq_true hroom)]
  exact wp_mpCall (fun _ _ => nofun) fun _ _ _ => rfl

theorem waitReadyLoop_spec (rank fuel cnt : Nat) :
    Prog.wp (waitReadyLoop cc rank fuel cnt) NotFull (fun _ _ => True) c := by
  induction fuel generalizing cnt c with
  | zero => exact nofun
  | succ fuel ih =>
    rw [waitReadyLoop, Prog.wp_bind]
    refine Prog.wp_mono look_spec (fun _ _ he => he) fun t c₁ hlook => ?_
    have hroom₁ : c₁.reqs.length < maxReqs := hlook ▸ hroom
    split
    · split
      · rw [Prog.wp_bind]
        refine Prog.wp_mono (commProgress_spec hroom₁) (fun _ _ he => he) fun _ c₂ hprog => ?_
        exact ih (hprog ▸ hroom₁) 0
      · exact ih hroom₁ _
    · exact trivial

theorem commWaitReady_spec (rank : Nat) : Prog.wp (commWaitReady cc rank) NotFull (fun _ _ => True) c := by
  rw [commWaitReady, commMpiRankToPeer, Prog.wp_bind, Prog.wp_bind, Prog.wp_require]
  split
  · rw [Prog.wp_pure, Prog.wp_bind, Prog.wp_get, Prog.wp_bind]
    exact Prog.wp_mono (waitReadyLoop_spec hroom _ _ _) (fun _ _ he => he) fun _ _ _ => trivial
  · intro he
    cases he

/-- A flush that returns has emptied the table. -/
theorem commFlush_spec : Prog.wp (commFlush cc) NotFull (fun _ c' => c'.reqs = []) c := by
  rw [commFlush, Prog.wp_bind, Prog.wp_get]
  split
  · rename_i hnil
    exact hnil
  · rw [Prog.wp_bind, Prog.wp_require, if_pos (decide_eq_true hroom), Prog.wp_bind]
    exact wp_mpCall (fun _ _ => nofun) fun _ _ _ => rfl

end Room

theorem commTrackRequest_run {c : Comm} (p : Ptr) (hroom : c.reqs.length < maxReqs) : commTrackRequest p c =
    (.ok (), { c with reqs := c.reqs ++ [⟨p, (c.sys.w.mem p).peer, (c.sys.w.mem p).id⟩] }) := by
  rw [commTrackRequest, Prog.bind_ok (Prog.get_run _), Prog.bind_run, Prog.require, if_pos (decide_eq_true hroom)]
  rfl

/-- The table drains as long as it is not full. -/
theorem drains_iff {c : Comm} : Drains cc c ↔ c.reqs.length < maxReqs := by
  constructor
  · intro h
    by_contra hfull
    refine h.progress [] [] ?_
    have hno : ¬ decide ((c.given [] []).reqs.length < maxReqs) = true := fun hd => hfull (of_decide_eq_true hd)
    rw [commProgress, Prog.bind_ok (Prog.get_run _), Prog.bind_run, Prog.require, if_neg hno]
    rfl
  · intro hroom
    constructor
    · exact fun tape arrivals => ne_of_wp (commProgress_spec hroom)
    · exact fun rank tape arrivals => ne_of_wp (commWaitReady_spec (by exact hroom) rank)
    · exact fun tape arrivals => ne_of_wp (commFlush_spec hroom)
    · intro tape arrivals ret c' p hflush
      have hnil : c'.reqs = [] := (Prog.wp_ok hflush).mp (commFlush_spec hroom)
      rw [commTrackRequest_run p (by rw [hnil]; decide)]

/-! ## The runs -/

/-- A call that was made in the state `before` and came back. -/
structure CallRecord where
  before : Comm
  call : CommCall
  result : Int × Option Ptr
  after : Comm

/-- Runs of the calls that come back, in any order and with any answers. -/
inductive CommCalls (cc : CommConfig) : List CallRecord → Comm → Prop where
  | start : CommCalls cc [] Comm.init
  | call {steps c op tape arrivals x c'} : CommCalls cc steps c → op.run cc (c.given tape arrivals) = (.ok x, c') →
      CommCalls cc (steps ++ [⟨c.given tape arrivals, op, x, c'⟩]) c'

/-- The call has recorded a request. -/
def CallRecord.Records (s : CallRecord) : Prop := s.call.records s.result = true

namespace CommCalls
variable {steps : List CallRecord} {c : Comm}

theorem counts (h : CommCalls cc steps c) : ∀ s ∈ steps, s.call.Counts s.result s.before s.after := by
  induction h with
  | start => exact fun s hs => absurd hs List.not_mem_nil
  | call _ hrun ih =>
    intro s hs
    rcases List.mem_append.mp hs with hs | hs
    · exact ih s hs
    · rw [List.mem_singleton.mp hs]
      exact CommCall.counts hrun

/-- With two free entries before each request that is recorded, the table is
never full. -/
theorem roomy (h : CommCalls cc steps c) (hok : ∀ s ∈ steps, s.Records → s.before.reqs.length + 1 < maxReqs) :
    c.reqs.length < maxReqs ∧ ∀ s ∈ steps, s.after.reqs.length < maxReqs := by
  induction h with
  | start => exact ⟨by decide, fun s hs => absurd hs List.not_mem_nil⟩
  | @call steps c op tape arrivals x c' _ hrun ih =>
    obtain ⟨hc, hsteps⟩ := ih fun s hs => hok s (List.mem_append_left _ hs)
    have hlast := hok ⟨c.given tape arrivals, op, x, c'⟩ (List.mem_append_right _ (List.mem_singleton_self _))
    have hc' : c'.reqs.length < maxReqs := by
      have hcounts : op.Counts x (c.given tape arrivals) c' := CommCall.counts hrun
      unfold CommCall.Counts at hcounts
      split at hcounts
      · rename_i hrec
        rw [hcounts]
        exact hlast hrec
      · exact Nat.lt_of_le_of_lt hcounts hc
    refine ⟨hc', fun s hs => ?_⟩
    rcases List.mem_append.mp hs with hs | hs
    · exact hsteps s hs
    · rw [List.mem_singleton.mp hs]
      exact hc'

end CommCalls

/-- Every run of calls that come back: the table can be drained in every state
reached exactly if no request is recorded in its last entry. -/
theorem comm_table_drains {steps : List CallRecord} {c : Comm} (h : CommCalls cc steps c) :
    (∀ s ∈ steps, Drains cc s.after) ↔ ∀ s ∈ steps, s.Records → s.before.reqs.length + 1 < maxReqs := by
  constructor
  · intro hd s hs hrec
    have hone : s.after.reqs.length = s.before.reqs.length + 1 := (if_pos hrec).mp (h.counts s hs)
    rw [← hone]
    exact drains_iff.mp (hd s hs)
  · exact fun hok s hs => drains_iff.mpr ((h.roomy hok).2 s hs)

/-! ## Up to a full table -/

/-- `mp_irecv` takes one request id and returns its request. -/
theorem mpIrecv_run {w : World} (hid : (w.clients 0).lastReqId < uintMax) (reg : Reg) :
    ∃ w', mpIrecv onePeer 4096 8 1 reg ⟨w, []⟩ = (.ok (0, some w.nextFree), ⟨w', []⟩) ∧
      (w'.clients 0).lastReqId = (w.clients 0).lastReqId + 1 := by
  have hsucc : Succeeds [] := nofun
  rw [mpIrecv, Prog.bind_ok (clientOf_run rfl _), start_run hid, Prog.bind_ok (mpPostRecv_run hsucc _ _ _)]
  rw [if_neg (by decide)]
  refine ⟨_, rfl, ?_⟩
  have htake := w.take_clients .mpIrecv 0 (onePeer.mpiRank 0) .recv .pendingNowait 0
  rw [if_pos rfl] at htake
  exact congrArg Client.lastReqId htake

/-- With successful answers a buffer is registered unless it is already. -/
theorem commRegister_run {size : Nat} (hsize : size ≠ 0) (creg : Nat) (c : Comm) :
    commRegister size creg (c.given [] []) = (.ok 0, { c.given [] [] with regs := c.regs.ensure creg }) := by
  rw [commRegister, if_neg hsize, Prog.bind_ok (Prog.get_run _), Registrations.ensure]
  by_cases hreg : c.regs.creg creg = none
  · rw [if_pos (show (c.given [] []).regs.creg creg = none from hreg), if_pos hreg]
    rfl
  · rw [if_neg (show ¬ (c.given [] []).regs.creg creg = none from hreg), if_neg hreg]
    rfl

/-- A receive with successful answers is recorded if there is room. -/
theorem recvInts_run {c : Comm} (hroom : c.reqs.length < maxReqs) (hid : (c.sys.w.clients 0).lastReqId < uintMax) :
    ∃ p c', (recvInts 2).run pairOfRanks (c.given [] []) = (.ok (0, some p), c') ∧
      (c'.sys.w.clients 0).lastReqId = (c.sys.w.clients 0).lastReqId + 1 := by
  have hpre : commPrelude pairOfRanks 2 .int 0 1 (c.given [] []) =
      (.ok (8, 1, (c.regs.ensure 0).reg 0), { c.given [] [] with regs := c.regs.ensure 0 }) := by
    have hreg := commRegister_run (show 2 * 4 % 2 ^ 64 ≠ 0 by decide) 0 c
    have hpeer : commMpiRankToPeer pairOfRanks 1 (c.given [] []) = (.ok 1, c.given [] []) := rfl
    rw [commPrelude, commSizeOfMpiType, Prog.bind_ok (Prog.pure_run _ _), Prog.bind_ok hpeer, Prog.bind_ok hreg]
    rfl
  obtain ⟨w', hrecv, hlast⟩ := mpIrecv_run hid ((c.regs.ensure 0).reg 0)
  have hcall : mpCall (mpIrecv onePeer 4096 8 1 ((c.regs.ensure 0).reg 0))
      { c.given [] [] with regs := c.regs.ensure 0 } =
      (.ok (0, some c.sys.w.nextFree), { c.given [] [] with regs := c.regs.ensure 0, sys := ⟨w', []⟩ }) := by
    have hsys : (c.given [] []).sys = ⟨c.sys.w, []⟩ := rfl
    rw [mpCall, hsys, hrecv]
  have hrun : commPost pairOfRanks 2 .int 0 1 (fun n peer reg => mpIrecv onePeer 4096 n peer reg) (c.given [] []) =
      (.ok (0, some c.sys.w.nextFree), { c.given [] [] with
        regs := c.regs.ensure 0, sys := ⟨w', []⟩
        reqs := c.reqs ++ [⟨c.sys.w.nextFree, (w'.mem c.sys.w.nextFree).peer, (w'.mem c.sys.w.nextFree).id⟩] }) := by
    rw [commPost, Prog.bind_ok hpre]
    refine (Prog.bind_ok hcall _).trans ?_
    exact Prog.bind_ok (commTrackRequest_run _ (by exact hroom)) _
  exact ⟨_, _, hrun, hlast⟩

/-- Up to 16384 receives are recorded. -/
theorem recvs_return {n : Nat} (hn : n ≤ maxReqs) : ∃ steps c, CommCalls pairOfRanks steps c ∧
    steps.map CallRecord.call = List.replicate n (.transfer (recvInts 2)) ∧ c.reqs.length = n ∧
    (∀ s ∈ steps, s.before.reqs.length < n) ∧ (c.sys.w.clients 0).lastReqId = n := by
  induction n with
  | zero => exact ⟨[], _, .start, rfl, rfl, nofun, rfl⟩
  | succ n ih =>
    obtain ⟨steps, c, hcalls, hsteps, hlen, hbefore, hlast⟩ := ih (Nat.le_of_succ_le hn)
    have hid : (c.sys.w.clients 0).lastReqId < uintMax := by
      rw [hlast]
      exact Nat.lt_of_lt_of_le hn (by decide)
    obtain ⟨p, c', hrun, hlast'⟩ := recvInts_run (by omega) hid
    have hone : c'.reqs.length = (c.given [] []).reqs.length + 1 := CommCall.counts_transfer hrun
    refine ⟨_, c', @CommCalls.call pairOfRanks steps c (.transfer (recvInts 2)) [] [] _ c' hcalls hrun, ?_, ?_,
      fun s hs => ?_, ?_⟩
    · rw [List.map_append, hsteps, List.replicate_succ']
      rfl
    · exact hone.trans (congrArg Nat.succ hlen)
    · rcases List.mem_append.mp hs with hs | hs
      · exact Nat.lt_succ_of_lt (hbefore s hs)
      · rw [List.mem_singleton.mp hs]
        exact Nat.lt_succ_of_le (Nat.le_of_eq hlen)
    · rw [hlast', hlast]

/-- 16383 receives: the table can be drained after each of them. -/
theorem comm_table_drains_of_recvs : ∃ steps c, CommCalls pairOfRanks steps c ∧
    steps.map CallRecord.call = List.replicate (maxReqs - 1) (.transfer (recvInts 2)) ∧ c.reqs.length + 1 = maxReqs ∧
    ∀ s ∈ steps, Drains pairOfRanks s.after := by
  obtain ⟨steps, c, hcalls, hsteps, hlen, hbefore, -⟩ := recvs_return (Nat.sub_le maxReqs 1)
  refine ⟨steps, c, hcalls, hsteps, ?_, (comm_table_drains hcalls).mpr fun s hs _ => ?_⟩
  · rw [hlen]
    rfl
  · have := hbefore s hs
    omega

/-- 16384 receives are all recorded; then neither `comm_progress` nor
`comm_flush` passes its assertion. -/
theorem full_table_is_stuck : ∃ steps c, CommCalls pairOfRanks steps c ∧
    steps.map CallRecord.call = List.replicate maxReqs (.transfer (recvInts 2)) ∧ c.reqs.length = maxReqs ∧
    commProgress pairOfRanks c = (.error .assertReqs, c) ∧ commFlush pairOfRanks c = (.error .assertReqs, c) ∧
    ¬ Drains pairOfRanks c := by
  obtain ⟨steps, c, hcalls, hsteps, hlen, -, -⟩ := recvs_return (Nat.le_refl maxReqs)
  have hstop : ∀ {α : Type} (f : Unit → CM α),
      (Prog.require (decide (c.reqs.length < maxReqs)) .assertReqs >>= f) c = (.error .assertReqs, c) := by
    intro α f
    rw [hlen]
    rfl
  refine ⟨steps, c, hcalls, hsteps, hlen, ?_, ?_, fun hd => ?_⟩
  · rw [commProgress, Prog.bind_ok (Prog.get_run _), hstop]
  · have hsome : c.reqs ≠ [] := by
      rintro hnil
      rw [hnil] at hlen
      cases hlen
    rw [commFlush, Prog.bind_ok (Prog.get_run _), if_neg hsome, hstop]
  · have := drains_iff.mp hd
    omega

end LibMp
