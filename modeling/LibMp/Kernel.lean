import LibMp.CommSteps
import LibMp.Ring

/- The calls of COMM for kernels that communicate (comm.cpp): they fill in a
   block of descriptors that is given to the kernel at its launch.

   The blocks stand in a ring of `n_dreqs`. `comm_prepare_wait_ready`,
   `comm_prepare_isend` and `comm_prepare_wait_all` add to the current block,
   `comm_prepared_requests` gives it away and clears the next one. Each counter
   goes up in the argument of `get_descriptors`, so before that call can fail,
   and none is compared with `max_n_descs`: a write past an array is a stop of
   its own here (`overrun`). -/
namespace LibMp

def maxNDescs : Nat := 32
def nDreqs : Nat := 128

namespace CommDevDescs
variable (d : CommDevDescs) (k : DescKind)

/-- `n_ready++` and its like. -/
def bump : CommDevDescs := { d with n := Function.update d.n k (d.n k + 1) }

def store (i : Nat) (x : KernelDesc) : CommDevDescs :=
  { d with descs := Function.update d.descs k (Function.update (d.descs k) i x) }

end CommDevDescs

/-! ## The current block -/

/-- `dreqs()`: the blocks are allocated at the first use, all zero. -/
def dreqs : CM CommDevDescs := do
  let s ← Prog.get
  match s.pdreqs with
  | some blocks => return blocks s.dreqIdx
  | none =>
    let err ← mpCall returnCode
    check err
    Prog.modify fun s => { s with pdreqs := some fun _ => {}, dreqIdx := 0 }
    return {}

def setDreqs (g : CommDevDescs → CommDevDescs) : CM Unit :=
  Prog.modify fun s => { s with
    pdreqs := s.pdreqs.map fun blocks => Function.update blocks s.dreqIdx (g (blocks s.dreqIdx)) }

/-- `&dreqs()->ready[dreqs()->n_ready++]` and its like: the index. -/
def nextDesc (k : DescKind) : CM Nat := do
  let d ← dreqs
  setDreqs fun d => d.bump k
  return d.n k

/-- A descriptor is stored at an index. -/
def storeDesc (k : DescKind) (i : Nat) (x : KernelDesc) : CM Unit := do
  Prog.require (i < maxNDescs) .overrun
  setDreqs fun d => d.store k i x

namespace Kernel
variable (cc : CommConfig)

/-- `comm_prepare_wait_ready`. -/
def commPrepareWaitReady (rank : Nat) : CM Int := do
  let peer ← commMpiRankToPeer cc rank
  let i ← nextDesc .ready
  let (ret, ptr, value) ← prepareReadySem cc peer
  storeDesc .ready i (.isem32 ptr value)
  return ret

/-- `comm_prepare_isend`. -/
def commPrepareIsend (buf size : Nat) (type : MpiType) (creg destRank : Nat) : CM (Int × Option Ptr) := do
  let (nbytes, peer, reg) ← commPrelude cc size type creg destRank
  let (retcode, req) ← mpCall (mpSendPrepare cc.mp buf (toInt nbytes) peer reg)
  if retcode ≠ 0 then
    let _ ← commDeregister creg
    return (-1, none)
  match req with
  | none => return (0, none)
  | some p =>
    let i ← nextDesc .tx
    let retcode ← mpCall (getSendDescriptors cc.mp p)
    if retcode ≠ 0 then
      let _ ← commDeregister creg
      return (-1, none)
    let s ← Prog.get
    storeDesc .tx i (.send (s.sys.w.mem p).gdsSendInfo)
    commTrackRequest p
    return (0, some p)

/-- `comm_prepare_wait_all`. -/
def commPrepareWaitAll : List Ptr → CM Int
  | [] => return 0
  | p :: reqs => do
    let i ← nextDesc .wait
    let retcode ← mpCall (getWaitDescriptors cc.mp p)
    if retcode ≠ 0 then return -1
    let s ← Prog.get
    storeDesc .wait i (.wait (s.sys.w.mem p).gdsWaitInfo)
    commPrepareWaitAll reqs

/-- `comm_prepared_requests`: the index of the block. -/
def commPreparedRequests : CM Nat := do
  let _ ← dreqs
  let s ← Prog.get
  Prog.modify fun s => { s with dreqIdx := (s.dreqIdx + 1) % nDreqs }
  let _ ← dreqs
  setDreqs fun _ => {}
  return s.dreqIdx

end Kernel

/-! ## What the helpers do -/

/-- The blocks as a ring; before the first use all blocks are zero. -/
def Comm.ring (c : Comm) : Ring CommDevDescs :=
  match c.pdreqs with
  | none => ⟨fun _ => {}, 0⟩
  | some blocks => ⟨blocks, c.dreqIdx⟩

/-- Nothing but the answers and the blocks is different. -/
structure OnlyBlocks (c c' : Comm) : Prop where
  world : c'.sys.w = c.sys.w
  ready : c'.ready = c.ready
  reqs : c'.reqs = c.reqs
  regs : c'.regs = c.regs

theorem OnlyBlocks.trans {c₁ c₂ c₃ : Comm} (h : OnlyBlocks c₁ c₂) (h' : OnlyBlocks c₂ c₃) : OnlyBlocks c₁ c₃ :=
  ⟨h'.world.trans h.world, h'.ready.trans h.ready, h'.reqs.trans h.reqs, h'.regs.trans h.regs⟩

variable {c : Comm}

theorem dreqs_spec : Prog.wp dreqs InArrays
    (fun d c' => d = c.ring.current ∧ c'.ring = c.ring ∧ c'.pdreqs ≠ none ∧ OnlyBlocks c c') c := by
  unfold dreqs
  rw [Prog.wp_bind, Prog.wp_get]
  cases hp : c.pdreqs with
  | some blocks =>
    have hr : c.ring = ⟨blocks, c.dreqIdx⟩ := by rw [Comm.ring, hp]
    exact ⟨by rw [hr]; rfl, rfl, by simp [hp], rfl, rfl, rfl, rfl⟩
  | none =>
    have hr : c.ring = ⟨fun _ => {}, 0⟩ := by rw [Comm.ring, hp]
    rw [hr]
    refine wp_checked (fun e _ => mp_ne_overrun e) (fun _ => exitCheck_ne_overrun) fun y hy => ?_
    exact ⟨rfl, rfl, nofun, returnCode_ok hy, rfl, rfl, rfl⟩

theorem setDreqs_spec {S : CommStop → Comm → Prop} (hp : c.pdreqs ≠ none) (g : CommDevDescs → CommDevDescs) :
    Prog.wp (setDreqs g) S (fun _ c' => c'.ring = c.ring.fill g ∧ c'.pdreqs ≠ none ∧ OnlyBlocks c c') c := by
  obtain ⟨blocks, hb⟩ := Option.ne_none_iff_exists'.mp hp
  rw [setDreqs, Prog.wp_modify, hb]
  have hr : c.ring = ⟨blocks, c.dreqIdx⟩ := by rw [Comm.ring, hb]
  rw [hr]
  exact ⟨rfl, nofun, rfl, rfl, rfl, rfl⟩

theorem nextDesc_spec (k : DescKind) : Prog.wp (nextDesc k) InArrays
    (fun i c' => i = c.ring.current.n k ∧ c'.ring = c.ring.fill (·.bump k) ∧ c'.pdreqs ≠ none ∧ OnlyBlocks c c') c := by
  rw [nextDesc, Prog.wp_bind]
  refine Prog.wp_mono dreqs_spec (fun _ _ he => he) fun d c₁ hd => ?_
  obtain ⟨rfl, hr, hp, hsame⟩ := hd
  rw [Prog.wp_bind]
  refine Prog.wp_mono (setDreqs_spec hp _) (fun _ _ he => he) fun _ c₂ hs => ?_
  exact ⟨rfl, hr ▸ hs.1, hs.2.1, hsame.trans hs.2.2⟩

/-- A descriptor is stored if there is room, and only then. -/
theorem storeDesc_spec (hp : c.pdreqs ≠ none) (k : DescKind) (i : Nat) (x : KernelDesc) : Prog.wp (storeDesc k i x)
    (fun e _ => e = .overrun → maxNDescs ≤ i)
    (fun _ c' => i < maxNDescs ∧ c'.ring = c.ring.fill (·.store k i x) ∧ OnlyBlocks c c') c := by
  rw [storeDesc, Prog.wp_bind, Prog.wp_require]
  split
  · rename_i hi
    refine Prog.wp_mono (setDreqs_spec hp _) (fun _ _ he => he) fun _ c₁ hs => ?_
    exact ⟨of_decide_eq_true hi, hs.1, hs.2.2⟩
  · rename_i hi
    exact fun _ => by simpa using hi

/-! ## The prepare calls -/

/-- The descriptors of each kind, in the order of the calls. -/
abbrev Batch := DescKind → List KernelDesc

namespace CommDevDescs

/-- The block has exactly these descriptors. -/
def Fills (d : CommDevDescs) (b : Batch) : Prop :=
  ∀ k, d.n k = (b k).length ∧ ∀ i x, (b k)[i]? = some x → d.descs k i = x

/-- One more descriptor. -/
def push (k : DescKind) (d : CommDevDescs) (x : KernelDesc) : CommDevDescs := (d.bump k).store k (d.n k) x

theorem push_n (k : DescKind) (d : CommDevDescs) (x : KernelDesc) (k' : DescKind) :
    (d.push k x).n k' = if k' = k then d.n k + 1 else d.n k' := Function.update_apply ..

theorem fills_blank : Fills {} fun _ => [] := fun _ => ⟨rfl, fun i x hx => by simp at hx⟩

theorem Fills.push {d : CommDevDescs} {b : Batch} (h : d.Fills b) (k : DescKind) (x : KernelDesc) :
    (d.push k x).Fills (Function.update b k (b k ++ [x])) := by
  intro k'
  rw [push_n]
  by_cases hk : k' = k
  · subst hk
    rw [if_pos rfl, Function.update_self, List.length_append, (h k').1]
    refine ⟨rfl, fun i y hy => ?_⟩
    have hat : (d.push k' x).descs k' i = if i = d.n k' then x else d.descs k' i := by
      simp [CommDevDescs.push, CommDevDescs.bump, store, Function.update_apply]
    rw [hat, (h k').1]
    by_cases hi : i = (b k').length
    · subst hi
      rw [List.getElem?_concat_length] at hy
      rw [if_pos rfl]
      exact Option.some.inj hy
    · have hlt := (List.getElem?_eq_some_iff.mp hy).1
      rw [List.length_append, List.length_singleton] at hlt
      rw [if_neg hi]
      rw [List.getElem?_append_left (by omega)] at hy
      exact (h k').2 i y hy
  · rw [if_neg hk, Function.update_of_ne hk]
    refine ⟨(h k').1, fun i y hy => ?_⟩
    have hat : (d.push k x).descs k' = d.descs k' := Function.update_of_ne hk ..
    rw [hat]
    exact (h k').2 i y hy

/-- Some more descriptors of one kind. -/
theorem Fills.pushAll {d : CommDevDescs} {b : Batch} (h : d.Fills b) (k : DescKind) (xs : List KernelDesc) :
    (xs.foldl (CommDevDescs.push k) d).Fills (Function.update b k (b k ++ xs)) := by
  induction xs generalizing d b with
  | nil =>
    rw [List.append_nil, Function.update_eq_self]
    exact h
  | cons x xs ih =>
    have := ih (h.push k x)
    rwa [Function.update_self, Function.update_idem, List.append_assoc] at this

end CommDevDescs

/-- The calls that prepare descriptors. -/
inductive KernelOp where
  | prepareWaitReady (rank : Nat)
  | prepareIsend (buf size : Nat) (type : MpiType) (creg destRank : Nat)
  | prepareWaitAll (reqs : List Ptr)

namespace KernelOp

/-- The program of a call: its return code, and the request it stores. -/
def run (cc : CommConfig) : KernelOp → CM (Int × Option Ptr)
  | prepareWaitReady rank => do return (← Kernel.commPrepareWaitReady cc rank, none)
  | prepareIsend buf size type creg destRank => Kernel.commPrepareIsend cc buf size type creg destRank
  | prepareWaitAll reqs => do return (← Kernel.commPrepareWaitAll cc reqs, none)

/-- The array a call adds to, and how much it adds. -/
def kind : KernelOp → DescKind
  | prepareWaitReady _ => .ready
  | prepareIsend .. => .tx
  | prepareWaitAll _ => .wait

def count : KernelOp → Nat
  | prepareWaitReady _ => 1
  | prepareIsend .. => 1
  | prepareWaitAll reqs => reqs.length

/-- The descriptors a call from `c` to `c'` that stores the request `req` is to
prepare: the word and the value that is expected, the request it has prepared,
the requests it is given. -/
def descs (cc : CommConfig) (req : Option Ptr) (c c' : Comm) : KernelOp → List KernelDesc
  | prepareWaitReady rank => [.isem32 (cc.readyTable + 4 * rank) (c.ready.readyValues rank)]
  | prepareIsend .. => req.toList.map fun p => .send (c'.sys.w.mem p).gdsSendInfo
  | prepareWaitAll reqs => reqs.map fun p => .wait (c.sys.w.mem p).gdsWaitInfo

end KernelOp

/-- A call that returns 0 has added `xs` to one array of the current block, and
there was room for them. -/
structure Appended (k : DescKind) (xs : List KernelDesc) (c c' : Comm) : Prop where
  ring : c'.ring = c.ring.fill fun d => xs.foldl (CommDevDescs.push k) d
  room : xs = [] ∨ c.ring.current.n k + xs.length ≤ maxNDescs

theorem bump_store (r : Ring CommDevDescs) (k : DescKind) (x : KernelDesc) :
    (r.fill (·.bump k)).fill (·.store k (r.current.n k) x) = r.fill fun d => [x].foldl (CommDevDescs.push k) d := by
  rw [Ring.fill_fill]
  rfl

/-- One descriptor was stored at the index that the counter had. -/
theorem Appended.one {k : DescKind} {x : KernelDesc} {c c' : Comm} {r : Ring CommDevDescs}
    (hr : r = c.ring.fill (·.bump k)) (hi : c.ring.current.n k < maxNDescs)
    (hring : c'.ring = r.fill (·.store k (c.ring.current.n k) x)) : Appended k [x] c c' where
  ring := by rw [hring, hr, bump_store]
  room := .inr hi

/-- A call for `count` descriptors: it ends past an array only if there was no
room, and what returns 0 has added the descriptors it should. -/
def Prepares (cc : CommConfig) (op : KernelOp) (c : Comm) : Prop :=
  Prog.wp (op.run cc) (fun e _ => e = .overrun → maxNDescs < c.ring.current.n op.kind + op.count)
    (fun x c' => x.1 = 0 → (op.descs cc x.2 c c').length = op.count ∧ Appended op.kind (op.descs cc x.2 c c') c c') c

variable {cc : CommConfig}

theorem prepareWaitReady_spec (rank : Nat) : Prepares cc (.prepareWaitReady rank) c := by
  unfold Prepares KernelOp.run Kernel.commPrepareWaitReady
  rw [Prog.wp_bind, Prog.wp_bind, commMpiRankToPeer, Prog.wp_bind, Prog.wp_require]
  split
  · rename_i hrank
    rw [Prog.wp_pure, Prog.wp_bind]
    refine Prog.wp_mono (nextDesc_spec .ready) (fun _ _ he h => absurd h he) ?_
    rintro i c₁ ⟨rfl, hring, hp, hsame⟩
    rw [Prog.wp_bind, prepareReadySem, commMpiRankToPeer, Prog.wp_bind, Prog.wp_bind, Prog.wp_require,
      if_pos hrank, Prog.wp_pure, Prog.wp_bind, Prog.wp_get]
    refine wp_checked (fun e _ h => absurd h (mp_ne_overrun e)) (fun _ h => absurd h exitCheck_ne_overrun) fun y _ => ?_
    rw [Prog.wp_bind, setReady, Prog.wp_modify, Prog.wp_pure, Prog.wp_bind]
    refine Prog.wp_mono (storeDesc_spec (by exact hp) _ _ _) (fun e _ he h => Nat.lt_succ_of_le (he h)) ?_
    rintro _ c₂ ⟨hi, hring₂, -⟩
    rw [hsame.ready] at hring₂
    exact fun _ => ⟨rfl, .one hring hi hring₂⟩
  · exact fun h => by cases h

/-- `mp_send_prepare` stores a request when it returns 0. -/
theorem mpSendPrepare_req {cfg : Config} {buf peer : Nat} {size : Int} {reg : Reg} {s s' : Sys} {req : Option Ptr}
    (h : mpSendPrepare cfg buf size peer reg s = (.ok (0, req), s')) : ∃ p, req = some p := by
  unfold mpSendPrepare at h
  obtain ⟨i, _, -, h₁⟩ := Prog.bind_eq_ok h
  obtain ⟨p, _, -, h₂⟩ := Prog.bind_eq_ok h₁
  obtain ⟨_, _, -, h₃⟩ := Prog.bind_eq_ok h₂
  split at h₃
  · cases h₃
    exact ⟨p, rfl⟩
  · unfold prepareInfos at h₃
    obtain ⟨ret, _, -, h₄⟩ := Prog.bind_eq_ok h₃
    split at h₄
    · rename_i hne
      cases h₄
      exact absurd rfl hne
    · obtain ⟨ret', _, -, h₅⟩ := Prog.bind_eq_ok h₄
      split at h₅
      · rename_i hne
        cases h₅
        exact absurd rfl hne
      · cases h₅
        exact ⟨p, rfl⟩

theorem prepareIsend_spec (buf size : Nat) (type : MpiType) (creg destRank : Nat) :
    Prepares cc (.prepareIsend buf size type creg destRank) c := by
  have hfail : ∀ d : Comm, Prog.wp (do let _ ← commDeregister creg; return (-1, none) : CM (Int × Option Ptr))
      (fun e _ => e = .overrun → maxNDescs < c.ring.current.n .tx + 1) (fun x c' => x.1 = 0 →
        (KernelOp.descs cc x.2 c c' (.prepareIsend buf size type creg destRank)).length = 1 ∧
          Appended .tx (KernelOp.descs cc x.2 c c' (.prepareIsend buf size type creg destRank)) c c') d := by
    intro d
    rw [Prog.wp_bind]
    refine Prog.wp_mono (commDeregister_spec creg) (fun _ _ he h => absurd h he) fun _ _ _ h0 => ?_
    exact absurd h0 (by decide)
  unfold Prepares KernelOp.run Kernel.commPrepareIsend
  rw [Prog.wp_bind]
  refine Prog.wp_mono (commPrelude_spec ..) (fun _ _ he h => absurd h he) ?_
  rintro ⟨nbytes, peer, reg⟩ c₁ ⟨-, -, y₁, -, rfl⟩
  rw [Prog.wp_bind]
  refine wp_mpCall (fun e _ h => absurd h (mp_ne_overrun e)) ?_
  rintro ⟨retcode, req⟩ y₂ hprep
  dsimp only
  split
  · exact hfail _
  · rename_i hret
    obtain rfl : retcode = 0 := not_not.mp hret
    obtain ⟨p, rfl⟩ := mpSendPrepare_req hprep
    dsimp only
    rw [Prog.wp_bind]
    refine Prog.wp_mono (nextDesc_spec .tx) (fun _ _ he h => absurd h he) ?_
    rintro i c₂ ⟨rfl, hring, hp, -⟩
    rw [Prog.wp_bind]
    refine wp_mpCall (fun e _ h => absurd h (mp_ne_overrun e)) ?_
    intro retcode y₃ _
    split
    · exact hfail _
    · rw [Prog.wp_bind, Prog.wp_get, Prog.wp_bind]
      refine Prog.wp_mono (storeDesc_spec (by exact hp) _ _ _) (fun _ _ he h => Nat.lt_succ_of_le (he h)) ?_
      rintro _ c₃ ⟨hi, hring₃, hsame₃⟩
      rw [Prog.wp_bind]
      refine Prog.wp_mono (commTrackRequest_spec p) (fun _ _ he h => absurd h he) ?_
      rintro _ c₄ ⟨-, rfl⟩
      rw [← hsame₃.world] at hring₃
      exact fun _ => ⟨rfl, .one hring hi hring₃⟩

/-- The wait infos stay when descriptors are made from them. -/
theorem getWaitDescriptors_infos {cfg : Config} {p : Ptr} {s s' : Sys} {ret : Int}
    (h : getWaitDescriptors cfg p s = (.ok ret, s')) (q : Ptr) :
    (s'.w.mem q).gdsWaitInfo = (s.w.mem q).gdsWaitInfo := by
  unfold getWaitDescriptors at h
  obtain ⟨r, s₁, h₁, h₂⟩ := Prog.bind_eq_ok h
  cases h₁
  obtain ⟨c, -, h₃⟩ := clientOf_bind_ok h₂
  obtain ⟨-, h₄⟩ := require_bind_ok h₃
  obtain ⟨_, s₂, h₅, h₆⟩ := Prog.bind_eq_ok h₄
  cases h₅
  obtain ⟨rc, s₃, h₇, h₈⟩ := Prog.bind_eq_ok h₆
  have hw : (s₃.w.mem q).gdsWaitInfo = (s.w.mem q).gdsWaitInfo := by
    rw [returnCode_ok h₇]
    by_cases hq : q = p <;> simp [World.setReq, hq]
  split at h₈ <;> cases h₈ <;> exact hw

theorem Appended.cons {k : DescKind} {x : KernelDesc} {xs : List KernelDesc} {c c' c'' : Comm} (h : Appended k [x] c c')
    (h' : Appended k xs c' c'') : Appended k (x :: xs) c c'' where
  ring := by
    rw [h'.ring, h.ring, Ring.fill_fill]
    rfl
  room := by
    right
    have hone : c.ring.current.n k + 1 ≤ maxNDescs := h.room.resolve_left (List.cons_ne_nil _ _)
    rcases h'.room with rfl | hroom
    · exact hone
    · rw [h.ring, Ring.fill_current, List.foldl_cons, List.foldl_nil, CommDevDescs.push_n, if_pos rfl] at hroom
      rw [List.length_cons]
      omega

theorem prepareWaitAll_spec (reqs : List Ptr) : Prepares cc (.prepareWaitAll reqs) c := by
  have hall : Prog.wp (Kernel.commPrepareWaitAll cc reqs)
      (fun e _ => e = .overrun → maxNDescs < c.ring.current.n .wait + reqs.length)
      (fun ret c' => ret = 0 → Appended .wait (reqs.map fun p => .wait (c.sys.w.mem p).gdsWaitInfo) c c') c := by
    induction reqs generalizing c with
    | nil => exact fun _ => ⟨(Ring.fill_id c.ring).symm, .inl rfl⟩
    | cons p reqs ih =>
      rw [Kernel.commPrepareWaitAll, Prog.wp_bind]
      refine Prog.wp_mono (nextDesc_spec .wait) (fun _ _ he h => absurd h he) ?_
      rintro i c₁ ⟨rfl, hring, hp, hsame⟩
      rw [Prog.wp_bind]
      refine wp_mpCall (fun e _ h => absurd h (mp_ne_overrun e)) ?_
      intro retcode y hdesc
      have hinfos : ∀ q, (y.w.mem q).gdsWaitInfo = (c.sys.w.mem q).gdsWaitInfo :=
        fun q => hsame.world ▸ getWaitDescriptors_infos hdesc q
      split
      · exact fun h0 => absurd h0 (by decide)
      · rw [Prog.wp_bind, Prog.wp_get, Prog.wp_bind]
        refine Prog.wp_mono (storeDesc_spec (by exact hp) _ _ _) (fun _ _ he h => ?_) ?_
        · have := he h
          rw [List.length_cons]
          omega
        · rintro _ c₂ ⟨hi, hring₂, hsame₂⟩
          rw [hinfos p] at hring₂
          have hone : Appended .wait [.wait (c.sys.w.mem p).gdsWaitInfo] c c₂ := .one hring hi hring₂
          -- the counter has gone up by one, the infos of the rest are as before
          have hn : c₂.ring.current.n .wait = c.ring.current.n .wait + 1 := by
            rw [hone.ring, Ring.fill_current, List.foldl_cons, List.foldl_nil, CommDevDescs.push_n, if_pos rfl]
          have hrest : ∀ q, (c₂.sys.w.mem q).gdsWaitInfo = (c.sys.w.mem q).gdsWaitInfo := by
            intro q
            rw [hsame₂.world]
            exact hinfos q
          refine Prog.wp_mono (@ih c₂) (fun _ _ he h => ?_) fun ret c' h0 hret => ?_
          · have := he h
            rw [hn] at this
            rw [List.length_cons]
            omega
          · have htail := h0 hret
            simp only [hrest] at htail
            exact hone.cons htail
  unfold Prepares KernelOp.run
  rw [Prog.wp_bind]
  refine Prog.wp_mono hall (fun _ _ he => he) fun ret c' h h0 => ?_
  exact ⟨List.length_map .., h h0⟩

/-- What every prepare call does. -/
theorem KernelOp.prepares (op : KernelOp) : Prepares cc op c := by
  cases op with
  | prepareWaitReady rank => exact prepareWaitReady_spec rank
  | prepareIsend buf size type creg destRank => exact prepareIsend_spec buf size type creg destRank
  | prepareWaitAll reqs => exact prepareWaitAll_spec reqs

/-- `comm_prepared_requests` gives the current block away. -/
theorem commPreparedRequests_spec : Prog.wp Kernel.commPreparedRequests InArrays
    (fun b c' => b = c.ring.idx ∧ c'.ring = c.ring.give nDreqs {} ∧ OnlyBlocks c c') c := by
  rw [Kernel.commPreparedRequests, Prog.wp_bind]
  refine Prog.wp_mono dreqs_spec (fun _ _ he => he) ?_
  rintro d c₁ ⟨-, hring, hp, hsame⟩
  obtain ⟨blocks, hb⟩ := Option.ne_none_iff_exists'.mp hp
  have hr : c₁.ring = ⟨blocks, c₁.dreqIdx⟩ := by rw [Comm.ring, hb]
  rw [Prog.wp_bind, Prog.wp_get, Prog.wp_bind, Prog.wp_modify, Prog.wp_bind]
  refine Prog.wp_mono dreqs_spec (fun _ _ he => he) ?_
  rintro d' c₂ ⟨-, hring₂, hp₂, hsame₂⟩
  rw [Prog.wp_bind]
  refine Prog.wp_mono (setDreqs_spec hp₂ _) (fun _ _ he => he) ?_
  rintro _ c₃ ⟨hring₃, -, hsame₃⟩
  have hnext : c₂.ring = ⟨blocks, (c₁.dreqIdx + 1) % nDreqs⟩ := by
    rw [hring₂, Comm.ring]
    simp only [hb]
  refine ⟨?_, ?_, hsame.trans (OnlyBlocks.trans ⟨hsame₂.world, hsame₂.ready, hsame₂.reqs, hsame₂.regs⟩ hsame₃)⟩
  · rw [← hring, hr]
  · rw [hring₃, hnext, ← hring, hr]
    rfl

end LibMp
