import LibMp.Quiet

/- The pairing of requests and wait infos.

   Whether a call prepares the wait info of its request depends on the call, on
   the mode and on the flags of a put; whether a wait gives it away depends on
   the status alone. `FillInv` is the pairing the code does not store: a request
   that a preparing call made holds a fill of its own, and the fill has not been
   given while the status is the one from which `mp_wait_all` gives it. The
   request that a call is about to make is exempt until the call has filled its
   wait info. -/
namespace LibMp
variable {cfg : Config}

/-! ## The invariant -/

/-- See the head of the file. The running call has not come to the wait info of
the request it has taken, `cur`. -/
structure FillInv (cfg : Config) (cur : Option Ptr) (w : World) : Prop where
  below : ∀ p i, (w.mem p).gdsWaitInfo = some i → i.serial < w.fills
  apart : ∀ p q i j, (w.mem p).gdsWaitInfo = some i → (w.mem q).gdsWaitInfo = some j → i.serial = j.serial → p = q
  known : ∀ p i, (w.mem p).gdsWaitInfo = some i → i.op ≤ (w.clients i.client).lastReqId
  given : ∀ p op info, .given p op info ∈ w.log → ∃ i, info = some i ∧ i.op = op ∧ i.serial < w.fills
  kept : ∀ p q op i j, .given q op (some j) ∈ w.log → (w.mem p).gdsWaitInfo = some i → i.serial = j.serial →
    q = p ∧ j = i
  once : (givenSerials w.log).Nodup
  own : ∀ p fn, cur ≠ some p → (w.mem p).owner = some fn → fn.preparesWait cfg = true →
    (fn.isPut = true → nowait (w.mem p).flags = false) → Own cfg w p
  fresh : ∀ p i, cur ≠ some p →
    (w.mem p).status = .pendingNowait ∨ (w.mem p).status = .prepared ∧ (w.mem p).owner = some .mpPutPrepare →
    Own cfg w p → (w.mem p).gdsWaitInfo = some i → i.serial ∉ givenSerials w.log
  maker : ∀ p, (w.mem p).status = .pendingNowait → ∃ fn, (w.mem p).owner = some fn ∧ fn ≠ .mpSendOnStream
  puts : ∀ p fn, (w.mem p).owner = some fn → fn.isPut = true → (w.mem p).type.rx = false

theorem Request.SameJob.setReq {w : World} {p : Ptr} {g : Request → Request} (hg : (w.mem p).SameJob (g (w.mem p)))
    (q : Ptr) : (w.mem q).SameJob ((w.setReq p g).mem q) :=
  w.setReq_rel (fun _ => ⟨rfl, rfl, rfl, rfl, rfl, rfl⟩) hg q

theorem Request.SameJob.own {w w' : World} {p : Ptr} (hs : (w.mem p).SameJob (w'.mem p)) :
    Own cfg w' p ↔ Own cfg w p := by
  unfold Own
  rw [hs.info, hs.type, hs.id, hs.peer]

namespace FillInv
variable {w w' : World} {cur : Option Ptr}

theorem init : FillInv cfg none World.init := by
  have hmem : ∀ p, (World.init.mem p).gdsWaitInfo = none ∧ (World.init.mem p).status = .undef := by
    intro p
    simp only [World.init, World.allocateRequests]
    split <;> exact ⟨rfl, rfl⟩
  have hinfo : ∀ {p i}, (World.init.mem p).gdsWaitInfo ≠ some i := by
    intro p i hi
    rw [(hmem p).1] at hi
    cases hi
  have howner : ∀ {p fn}, (World.init.mem p).owner ≠ some fn := by
    intro p fn ho
    rw [init_owner] at ho
    cases ho
  constructor
  case below => exact fun p i hi => absurd hi hinfo
  case apart => exact fun p q i j hi => absurd hi hinfo
  case known => exact fun p i hi => absurd hi hinfo
  case given => exact fun p op info h => absurd h List.not_mem_nil
  case kept => exact fun p q op i j h => absurd h List.not_mem_nil
  case once => exact .nil
  case own => exact fun p fn _ ho => absurd ho howner
  case fresh => exact fun p i _ _ _ hi => absurd hi hinfo
  case maker =>
    intro p hp
    rw [(hmem p).2] at hp
    cases hp
  case puts => exact fun p fn ho => absurd ho howner

/-- No wait info is filled and none is given away. What remains to be shown is
about the requests that hold them. -/
theorem frame {cur' : Option Ptr} (h : FillInv cfg cur w)
    (hinfo : ∀ q, (w'.mem q).gdsWaitInfo = (w.mem q).gdsWaitInfo) (hfills : w'.fills = w.fills)
    (hgiven : ∀ p op i, .given p op i ∈ w'.log ↔ .given p op i ∈ w.log)
    (hserials : givenSerials w'.log = givenSerials w.log)
    (hreq : ∀ c, (w.clients c).lastReqId ≤ (w'.clients c).lastReqId)
    (hown : ∀ p fn, cur' ≠ some p → (w'.mem p).owner = some fn → fn.preparesWait cfg = true →
      (fn.isPut = true → nowait (w'.mem p).flags = false) → Own cfg w' p)
    (hfresh : ∀ p i, cur' ≠ some p →
      (w'.mem p).status = .pendingNowait ∨ (w'.mem p).status = .prepared ∧ (w'.mem p).owner = some .mpPutPrepare →
      Own cfg w' p → (w.mem p).gdsWaitInfo = some i → i.serial ∉ givenSerials w.log)
    (hmaker : ∀ p, (w'.mem p).status = .pendingNowait → ∃ fn, (w'.mem p).owner = some fn ∧ fn ≠ .mpSendOnStream)
    (hputs : ∀ p fn, (w'.mem p).owner = some fn → fn.isPut = true → (w'.mem p).type.rx = false) :
    FillInv cfg cur' w' := by
  constructor
  case below =>
    intro p i hi
    rw [hinfo] at hi
    rw [hfills]
    exact h.below p i hi
  case apart =>
    intro p q i j hi hj
    rw [hinfo] at hi hj
    exact h.apart p q i j hi hj
  case known =>
    intro p i hi
    rw [hinfo] at hi
    exact Nat.le_trans (h.known p i hi) (hreq _)
  case given =>
    intro p op info hg
    rw [hfills]
    exact h.given p op info ((hgiven _ _ _).mp hg)
  case kept =>
    intro p q op i j hg hi
    rw [hinfo] at hi
    exact h.kept p q op i j ((hgiven _ _ _).mp hg) hi
  case once =>
    rw [hserials]
    exact h.once
  case own => exact hown
  case fresh =>
    intro p i hp hst ho hi
    rw [hinfo] at hi
    rw [hserials]
    exact hfresh p i hp hst ho hi
  case maker => exact hmaker
  case puts => exact hputs

theorem quiet (h : FillInv cfg cur w) (hq : Quiet w w') : FillInv cfg cur w' := by
  -- what a request that is still held was before
  have hheld : ∀ p, (w'.mem p).owner ≠ none → (w.mem p).SameWait (w'.mem p) := by
    intro p ho
    rcases hq.req p with hs | hb
    · exact hs
    · exact absurd hb.owner ho
  refine h.frame hq.info hq.fills (fun _ _ _ => hq.given_iff) hq.serials (fun c => (hq.reqId c).ge) ?_ ?_ ?_ ?_
  · intro p fn hcur ho hfn hput
    have hs := hheld p (by rw [ho]; simp)
    rw [hs.owner] at ho
    rw [hs.flags] at hput
    exact hs.own.mpr (h.own p fn hcur ho hfn hput)
  · intro p i hcur hst hown hi
    rcases hq.req p with hs | hb
    · refine h.fresh p i hcur (hst.imp hs.nowait fun ⟨hp, ho⟩ => ⟨hs.prepared hp, ?_⟩) (hs.own.mp hown) hi
      rw [← hs.owner]
      exact ho
    · rcases hst with hst | ⟨hst, -⟩
      · exact absurd hst hb.nowait
      · exact absurd hst hb.prepared
  · intro p hp
    rcases hq.req p with hs | hb
    · rw [hs.owner]
      exact h.maker p (hs.nowait hp)
    · exact absurd hp hb.nowait
  · intro p fn ho hput
    have hs := hheld p (by rw [ho]; simp)
    rw [hs.owner] at ho
    rw [hs.type]
    exact h.puts p fn ho hput

/-- A fill of the request that the call has taken. -/
theorem fill {p : Ptr} (h : FillInv cfg (some p) w) {c : Nat} {f : Flow} (hid : (w.mem p).id ≤ (w.clients c).lastReqId)
    (hat : (w.mem p).owner ≠ none → cfg.clientIndex (w.mem p).peer = some c ∧ (w.mem p).type.flow = f) :
    FillInv cfg none (w.fillWait c f p) := by
  have hself : ((w.fillWait c f p).mem p).gdsWaitInfo = some ⟨w.fills, c, f, (w.mem p).id⟩ := by simp [World.fillWait]
  have hother : ∀ q, q ≠ p → (w.fillWait c f p).mem q = w.mem q := by
    intro q hq
    simp [World.fillWait, hq]
  have hinfo : ∀ q i, ((w.fillWait c f p).mem q).gdsWaitInfo = some i →
      q = p ∧ i = ⟨w.fills, c, f, (w.mem p).id⟩ ∨ q ≠ p ∧ (w.mem q).gdsWaitInfo = some i := by
    intro q i hi
    by_cases hq : q = p
    · rw [hq, hself] at hi
      cases hi
      exact .inl ⟨hq, rfl⟩
    · rw [hother q hq] at hi
      exact .inr ⟨hq, hi⟩
  -- but for the wait info nothing changes
  have hsame : ∀ q, ((w.fillWait c f p).mem q).owner = (w.mem q).owner ∧
      ((w.fillWait c f p).mem q).status = (w.mem q).status ∧
      ((w.fillWait c f p).mem q).type = (w.mem q).type ∧ ((w.fillWait c f p).mem q).flags = (w.mem q).flags := by
    intro q
    by_cases hq : q = p
    · simp [World.fillWait, hq]
    · rw [hother q hq]
      exact ⟨rfl, rfl, rfl, rfl⟩
  have hown : ∀ q, q ≠ p → (Own cfg (w.fillWait c f p) q ↔ Own cfg w q) := by
    intro q hq
    unfold Own
    rw [hother q hq]
  have hold : ∀ {n}, n ∈ givenSerials w.log → n < w.fills := by
    intro n hn
    obtain ⟨q, op, j, hg, rfl⟩ := mem_givenSerials.mp hn
    obtain ⟨i, hi, -, hlt⟩ := h.given q op _ hg
    cases hi
    exact hlt
  constructor
  case below =>
    intro q i hi
    show i.serial < w.fills + 1
    rcases hinfo q i hi with ⟨-, rfl⟩ | ⟨-, hi⟩
    · exact Nat.lt_succ_self _
    · exact Nat.lt_succ_of_lt (h.below q i hi)
  case apart =>
    -- only the fill of `p` has the new number
    intro q q' i j hi hj hij
    rcases hinfo q i hi with ⟨hq, rfl⟩ | ⟨-, hi'⟩ <;> rcases hinfo q' j hj with ⟨hq', rfl⟩ | ⟨-, hj'⟩
    · rw [hq, hq']
    · have hlt := h.below q' j hj'
      rw [← hij] at hlt
      exact absurd hlt (Nat.lt_irrefl _)
    · have hlt := h.below q i hi'
      rw [hij] at hlt
      exact absurd hlt (Nat.lt_irrefl _)
    · exact h.apart q q' i j hi' hj' hij
  case known =>
    intro q i hi
    rcases hinfo q i hi with ⟨-, rfl⟩ | ⟨-, hi⟩
    · exact hid
    · exact h.known q i hi
  case given =>
    intro q op info hg
    obtain ⟨i, hi, hop, hlt⟩ := h.given q op info hg
    exact ⟨i, hi, hop, Nat.lt_succ_of_lt hlt⟩
  case kept =>
    intro q q' op i j hg hi hij
    rcases hinfo q i hi with ⟨-, rfl⟩ | ⟨-, hi⟩
    · have hlt := hold (mem_givenSerials.mpr ⟨q', op, j, hg, rfl⟩)
      rw [← hij] at hlt
      exact absurd hlt (Nat.lt_irrefl _)
    · exact h.kept q q' op i j hg hi hij
  case once => exact h.once
  case own =>
    intro q fn _ ho hfn hput
    rw [(hsame q).1] at ho
    rw [(hsame q).2.2.2] at hput
    by_cases hq : q = p
    · subst hq
      obtain ⟨hc, hf⟩ := hat (by rw [ho]; simp)
      refine ⟨w.fills, c, ?_, ?_⟩
      · simp [World.fillWait, hf]
      · simpa [World.fillWait] using hc
    · exact (hown q hq).mpr (h.own q fn (by simpa using Ne.symm hq) ho hfn hput)
  case fresh =>
    intro q i _ hst hq' hi
    rcases hinfo q i hi with ⟨-, rfl⟩ | ⟨hq, hi⟩
    · exact fun hn => Nat.lt_irrefl _ (hold hn)
    · rw [(hsame q).1, (hsame q).2.1] at hst
      exact h.fresh q i (by simpa using Ne.symm hq) hst ((hown q hq).mp hq') hi
  case maker =>
    intro q hst
    rw [(hsame q).2.1] at hst
    rw [(hsame q).1]
    exact h.maker q hst
  case puts =>
    intro q fn ho hput
    rw [(hsame q).1] at ho
    rw [(hsame q).2.2.1]
    exact h.puts q fn ho hput

end FillInv

/-! ## Handles -/

/-- A call that prepares wait infos has made the request at `p`. -/
def MadePreparing (cfg : Config) (w : World) (p : Ptr) : Prop :=
  ∃ fn, (w.mem p).owner = some fn ∧ fn.preparesWait cfg = true

/-- A handle that a call for prepared sends has returned. -/
def SendHandle (w : World) (p : Ptr) : Prop :=
  (w.mem p).owner = some .mpSendPrepare ∨ (w.mem p).owner = some .mpSendvPrepare

theorem SendHandle.owner {w : World} {p : Ptr} (hp : SendHandle w p) (cfg : Config) :
    ∃ fn, (w.mem p).owner = some fn ∧ fn ≠ .mpSendOnStream ∧ fn.preparesWait cfg = !cfg.useEventSync ∧
      fn.isPut = false := by
  rcases hp with hp | hp
  · exact ⟨_, hp, by decide, rfl, rfl⟩
  · exact ⟨_, hp, by decide, rfl, rfl⟩

theorem FillInv.own_of_sendHandle {w : World} {p : Ptr} (h : FillInv cfg none w) (he : cfg.useEventSync = false)
    (hp : SendHandle w p) : Own cfg w p := by
  obtain ⟨fn, ho, -, hfn, hput⟩ := hp.owner cfg
  refine h.own p fn (by simp) ho (by rw [hfn, he]; rfl) fun hp => ?_
  rw [hput] at hp
  cases hp

/-! ## A request is taken -/

/-- The call `fn` has taken a request for client `c` and stored its flags. -/
def World.begun (cfg : Config) (w : World) (fn : Fn) (c : Nat) (type : ReqType) (st : State) (flags : Nat) : World :=
  (w.take fn c (cfg.mpiRank c) type st).setReq w.nextFree fun r => { r with flags := flags }

section Begun
variable (cfg : Config) (w : World) (fn : Fn) (c : Nat) (type : ReqType) (st : State) (flags : Nat)

theorem World.begun_other {q : Ptr} (hq : q ≠ w.nextFree) :
    ∃ n, (w.begun cfg fn c type st flags).mem q = { w.mem q with next := n } := by
  obtain ⟨n, hn⟩ := w.refill_mem q
  refine ⟨n, ?_⟩
  rw [← hn, ← w.take_other fn c (cfg.mpiRank c) type st hq]
  simp [World.begun, hq]

theorem World.begun_self :
    ((w.begun cfg fn c type st flags).mem w.nextFree).gdsWaitInfo = (w.mem w.nextFree).gdsWaitInfo ∧
    ((w.begun cfg fn c type st flags).mem w.nextFree).id = (w.clients c).lastReqId + 1 ∧
    ((w.begun cfg fn c type st flags).mem w.nextFree).peer = cfg.mpiRank c ∧
    ((w.begun cfg fn c type st flags).mem w.nextFree).type = type ∧
    ((w.begun cfg fn c type st flags).mem w.nextFree).flags = flags ∧
    ((w.begun cfg fn c type st flags).mem w.nextFree).owner = some fn ∧
    ((w.begun cfg fn c type st flags).mem w.nextFree).status = st := by
  obtain ⟨n, hn⟩ := w.refill_mem w.nextFree
  simp [World.begun, World.take, World.popFree, World.bumpReqId, hn]

theorem World.begun_lastReqId (d : Nat) : ((w.begun cfg fn c type st flags).clients d).lastReqId =
    if d = c then (w.clients c).lastReqId + 1 else (w.clients d).lastReqId := by
  simp only [World.begun, World.setReq_clients, World.take_clients]
  split
  · rfl
  · rfl

theorem World.begun_rest : (w.begun cfg fn c type st flags).log = w.log ∧
    (w.begun cfg fn c type st flags).fills = w.fills := by
  constructor
  · exact w.take_log fn c (cfg.mpiRank c) type st
  · exact w.take_fills fn c (cfg.mpiRank c) type st

end Begun

/-- A request that was just taken holds no fill of its own: ids are not used
again. -/
theorem FillInv.not_own_begun {w : World} {cur : Option Ptr} (h : FillInv cfg cur w) (fn : Fn) {c : Nat}
    (type : ReqType) (st : State) (flags : Nat) (hc : cfg.clientIndex (cfg.mpiRank c) = some c) :
    ¬ Own cfg (w.begun cfg fn c type st flags) w.nextFree := by
  obtain ⟨hinfo, hid, hpeer, -⟩ := w.begun_self cfg fn c type st flags
  intro ⟨n, d, hi, hd⟩
  rw [hpeer, hc] at hd
  cases hd
  rw [hinfo, hid] at hi
  have hle := h.known _ _ hi
  dsimp only at hle
  omega

/-- The call takes a request. -/
theorem FillInv.begun {w : World} (h : FillInv cfg none w) {fn : Fn} (c : Nat) {type : ReqType} {st : State}
    (flags : Nat) (hst : st = .pendingNowait → fn ≠ .mpSendOnStream) (hput : fn.isPut = true → type.rx = false) :
    FillInv cfg (some w.nextFree) (w.begun cfg fn c type st flags) := by
  obtain ⟨sinfo, sid, speer, stype, sflags, sowner, sstatus⟩ := w.begun_self cfg fn c type st flags
  obtain ⟨hlog, hfills⟩ := w.begun_rest cfg fn c type st flags
  have hinfo : ∀ q, ((w.begun cfg fn c type st flags).mem q).gdsWaitInfo = (w.mem q).gdsWaitInfo := by
    intro q
    by_cases hq : q = w.nextFree
    · rw [hq]
      exact sinfo
    · obtain ⟨n, hn⟩ := w.begun_other cfg fn c type st flags hq
      rw [hn]
  -- the other requests, where `own` and `fresh` are asked of them
  have hother : ∀ q, some w.nextFree ≠ some q → (w.mem q).SameWait ((w.begun cfg fn c type st flags).mem q) := by
    intro q hq
    obtain ⟨n, hn⟩ := w.begun_other cfg fn c type st flags (q := q) (fun heq => hq (by rw [heq]))
    rw [hn]
    exact ⟨⟨rfl, rfl, rfl, rfl, rfl, rfl⟩, fun h => h, fun h => h⟩
  refine h.frame hinfo hfills (fun _ _ _ => by rw [hlog]) (by rw [hlog]) ?_ ?_ ?_ ?_ ?_
  · intro d
    rw [World.begun_lastReqId]
    split
    · rename_i hd
      rw [hd]
      exact Nat.le_succ _
    · exact le_rfl
  · intro p f hp ho hf hn
    have hs := hother p hp
    rw [hs.owner] at ho
    rw [hs.flags] at hn
    exact hs.own.mpr (h.own p f (by simp) ho hf hn)
  · intro p i hp hs' hown hi
    have hs := hother p hp
    refine h.fresh p i (by simp) (hs'.imp hs.nowait fun ⟨h1, h2⟩ => ⟨hs.prepared h1, ?_⟩) (hs.own.mp hown) hi
    rw [← hs.owner]
    exact h2
  · intro p hp
    by_cases hq : p = w.nextFree
    · rw [hq] at hp ⊢
      rw [sstatus] at hp
      exact ⟨fn, sowner, hst hp⟩
    · have hs := hother p (by simpa using Ne.symm hq)
      rw [hs.owner]
      exact h.maker p (hs.nowait hp)
  · intro p f ho hf
    by_cases hq : p = w.nextFree
    · rw [hq] at ho ⊢
      rw [sowner] at ho
      cases ho
      rw [stype]
      exact hput hf
    · have hs := hother p (by simpa using Ne.symm hq)
      rw [hs.owner] at ho
      rw [hs.type]
      exact h.puts p f ho hf

/-- A call that prepares a wait info for the request it has taken. -/
theorem FillInv.filled {w w' : World} (h : FillInv cfg none w) {fn : Fn} {c : Nat} {type : ReqType} {st : State}
    {flags : Nat} (hc : cfg.clientIndex (cfg.mpiRank c) = some c) (hst : st = .pendingNowait → fn ≠ .mpSendOnStream)
    (hput : fn.isPut = true → type.rx = false) (hq : Quiet (w.begun cfg fn c type st flags) w') :
    FillInv cfg none (w'.fillWait c type.flow w.nextFree) := by
  obtain ⟨-, sid, speer, stype, -⟩ := w.begun_self cfg fn c type st flags
  refine ((h.begun c flags hst hput).quiet hq).fill ?_ fun ho => ?_
  · rw [hq.id, sid, hq.reqId, World.begun_lastReqId, if_pos rfl]
  · rcases hq.req w.nextFree with hs | hb
    · rw [hs.peer, hs.type, speer, stype]
      exact ⟨hc, rfl⟩
    · exact absurd hb.owner ho

/-- A call that prepares none. -/
theorem FillInv.unfilled {w w' : World} (h : FillInv cfg none w) {fn : Fn} {c : Nat} {type : ReqType} {st : State}
    {flags : Nat} (hc : cfg.clientIndex (cfg.mpiRank c) = some c) (hst : st = .pendingNowait → fn ≠ .mpSendOnStream)
    (hput : fn.isPut = true → type.rx = false)
    (hfn : fn.preparesWait cfg = true → fn.isPut = true ∧ nowait flags = true)
    (hq : Quiet (w.begun cfg fn c type st flags) w') : FillInv cfg none w' := by
  obtain ⟨-, -, -, -, sflags, sowner, -⟩ := w.begun_self cfg fn c type st flags
  have hb := h.begun c flags hst hput
  have hnot := h.not_own_begun fn type st flags hc
  refine FillInv.quiet ⟨hb.below, hb.apart, hb.known, hb.given, hb.kept, hb.once, ?_, ?_, hb.maker, hb.puts⟩ hq
  · intro p f _ ho hf hn
    by_cases hp : p = w.nextFree
    · rw [hp] at ho hn
      rw [sowner] at ho
      cases ho
      rw [sflags] at hn
      obtain ⟨hisPut, hnowait⟩ := hfn hf
      rw [hn hisPut] at hnowait
      cases hnowait
    · exact hb.own p f (by simpa using Ne.symm hp) ho hf hn
  · intro p i _ hs hown hi
    by_cases hp : p = w.nextFree
    · rw [hp] at hown
      exact absurd hown hnot
    · exact hb.fresh p i (by simpa using Ne.symm hp) hs hown hi

/-! ## A wait info is given away -/

namespace FillInv
variable {w : World} {p : Ptr}

/-- What was not given for the operation was not given at all. -/
theorem unspent (h : FillInv cfg none w) (hown : Own cfg w p) (hs : ¬ Spent w p) {i : WaitInfo}
    (hi : (w.mem p).gdsWaitInfo = some i) : i.serial ∉ givenSerials w.log := by
  intro hn
  obtain ⟨q, op, j, hg, hj⟩ := mem_givenSerials.mp hn
  obtain ⟨rfl, rfl⟩ := h.kept p q op i j hg hi hj.symm
  obtain ⟨k, hk, hop, -⟩ := h.given q op _ hg
  cases hk
  obtain ⟨n, c, hi', -⟩ := hown
  apply hs
  unfold Spent
  rw [hi] at hi' ⊢
  cases hi'
  have hop' : op = (w.mem q).id := hop.symm
  rw [hop'] at hg
  exact hg

/-- The wait info of a request that is not to be waited for again. -/
theorem give (h : FillInv cfg none w) (hown : Own cfg w p)
    (hfresh : ∀ i, (w.mem p).gdsWaitInfo = some i → i.serial ∉ givenSerials w.log)
    (hn : (w.mem p).status ≠ .pendingNowait)
    (hp : (w.mem p).status = .prepared → (w.mem p).owner ≠ some .mpPutPrepare) : FillInv cfg none (w.give p) := by
  obtain ⟨n, c, hi, hc⟩ := hown
  have hnew : n ∉ givenSerials w.log := hfresh _ hi
  have hlog : (w.give p).log = w.log ++ [.given p (w.mem p).id (some ⟨n, c, (w.mem p).type.flow, (w.mem p).id⟩)] := by
    rw [← hi]
    rfl
  have hserials : givenSerials (w.give p).log = givenSerials w.log ++ [n] := by
    rw [hlog, givenSerials_append]
    rfl
  refine ⟨h.below, h.apart, h.known, ?_, ?_, ?_, h.own, ?_, h.maker, h.puts⟩
  · intro q op info hg
    rw [hlog] at hg
    rcases List.mem_append.mp hg with hg | hg
    · exact h.given q op info hg
    · cases List.mem_singleton.mp hg
      exact ⟨_, rfl, rfl, h.below p _ hi⟩
  · intro q q' op i j hg hi' hij
    rw [hlog] at hg
    rcases List.mem_append.mp hg with hg | hg
    · exact h.kept q q' op i j hg hi' hij
    · cases List.mem_singleton.mp hg
      obtain rfl := h.apart q p _ _ hi' hi hij
      have heq := hi'.symm.trans hi
      cases heq
      exact ⟨rfl, rfl⟩
  · rw [hserials]
    refine List.nodup_append.mpr ⟨h.once, List.nodup_singleton n, fun x hx y hy hxy => hnew ?_⟩
    rw [List.mem_singleton.mp hy] at hxy
    rw [← hxy]
    exact hx
  · intro q i _ hst hown hi'
    rw [hserials]
    intro hm
    rcases List.mem_append.mp hm with hm | hm
    · exact h.fresh q i (by simp) hst hown hi' hm
    · obtain rfl := h.apart q p _ _ hi' hi (List.mem_singleton.mp hm)
      rcases hst with hst | ⟨hst, ho⟩
      · exact hn hst
      · exact hp hst ho

/-- A prepared request is posted, to be waited for later. -/
theorem pend (h : FillInv cfg none w) {fn : Fn} (ho : (w.mem p).owner = some fn) (hfn : fn ≠ .mpSendOnStream)
    (hfresh : ∀ i, Own cfg w p → (w.mem p).gdsWaitInfo = some i → i.serial ∉ givenSerials w.log) {g : Request → Request}
    (hg : (w.mem p).SameJob (g (w.mem p))) : FillInv cfg none (w.setReq p g) := by
  have hsame := Request.SameJob.setReq hg
  have hstatus : ∀ q, q ≠ p → ((w.setReq p g).mem q).status = (w.mem q).status := by
    intro q hq
    rw [World.setReq_mem, if_neg hq]
  refine h.frame (fun q => (hsame q).info) rfl (fun _ _ _ => Iff.rfl) rfl (fun _ => le_rfl) ?_ ?_ ?_ ?_
  · intro q f hcur hof hf hput
    rw [(hsame q).owner] at hof
    rw [(hsame q).flags] at hput
    exact (hsame q).own.mpr (h.own q f hcur hof hf hput)
  · intro q i hcur hst hq hi
    by_cases hqp : q = p
    · subst hqp
      exact hfresh i ((hsame q).own.mp hq) hi
    · rw [(hsame q).owner, hstatus q hqp] at hst
      exact h.fresh q i hcur hst ((hsame q).own.mp hq) hi
  · intro q hst
    rw [(hsame q).owner]
    by_cases hqp : q = p
    · rw [hqp]
      exact ⟨fn, ho, hfn⟩
    · rw [hstatus q hqp] at hst
      exact h.maker q hst
  · intro q f hof hf
    rw [(hsame q).owner] at hof
    rw [(hsame q).type]
    exact h.puts q f hof hf

end FillInv

/-! ## Steps -/

/-- The event gives away a wait info of its own: that of a request of `w`, filled
for the operation the request is for. -/
def LogEv.GivesOwn (cfg : Config) (w : World) : LogEv → Prop
  | .given p op info => Own cfg w p ∧ op = (w.mem p).id ∧ info = (w.mem p).gdsWaitInfo
  | _ => True

theorem LogEv.NotGiven.givesOwn {e : LogEv} (h : e.NotGiven) (w : World) : e.GivesOwn cfg w := by
  cases e with
  | given => exact h.elim
  | _ => trivial

/-- A call that keeps the invariant and gives away wait infos of their own. -/
structure FillStep (cfg : Config) (w w' : World) : Prop where
  inv : FillInv cfg none w'
  gives : Adds (LogEv.GivesOwn cfg w) w w'

namespace FillStep
variable {w w' : World}

theorem quiet (h : FillInv cfg none w) (hq : Quiet w w') : FillStep cfg w w' :=
  ⟨h.quiet hq, hq.log.mono fun _ he => he.givesOwn w⟩

/-- And then something that does not concern the wait infos. -/
theorem andQuiet {w'' : World} (h : FillStep cfg w w') (hq : Quiet w' w'') : FillStep cfg w w'' :=
  ⟨h.inv.quiet hq, h.gives.trans (hq.log.mono fun _ he => he.givesOwn w)⟩

variable {fn : Fn} {c peer : Nat} {type : ReqType} {st : State} {flags : Nat}

theorem addsBegun (hq : Quiet (w.begun cfg fn c type st flags) w') : Adds (LogEv.GivesOwn cfg w) w w' := by
  have hbegun : Adds LogEv.NotGiven w (w.begun cfg fn c type st flags) :=
    .of_log (w.begun_rest cfg fn c type st flags).1
  exact (hbegun.trans hq.log).mono fun _ he => he.givesOwn w

theorem filled (h : FillInv cfg none w) (hc : cfg.clientIndex peer = some c)
    (hq : Quiet (w.begun cfg fn c type st flags) w')
    (hst : st = .pendingNowait → fn ≠ .mpSendOnStream) (hput : fn.isPut = true → type.rx = false) :
    FillStep cfg w (w'.fillWait c type.flow w.nextFree) := by
  have hrank : cfg.clientIndex (cfg.mpiRank c) = some c := by rw [Config.mpiRank_eq hc]; exact hc
  have hadds := addsBegun hq
  exact ⟨h.filled hrank hst hput hq, hadds⟩

theorem unfilled (h : FillInv cfg none w) (hc : cfg.clientIndex peer = some c)
    (hq : Quiet (w.begun cfg fn c type st flags) w')
    (hst : st = .pendingNowait → fn ≠ .mpSendOnStream) (hput : fn.isPut = true → type.rx = false)
    (hfn : fn.preparesWait cfg = true → fn.isPut = true ∧ nowait flags = true) : FillStep cfg w w' := by
  have hrank : cfg.clientIndex (cfg.mpiRank c) = some c := by rw [Config.mpiRank_eq hc]; exact hc
  exact ⟨h.unfilled hrank hst hput hfn hq, addsBegun hq⟩

/-- The wait info of the request at `p` can be given away in `w'`, by a call that
began in `w`. -/
structure Giveable (cfg : Config) (w w' : World) (p : Ptr) : Prop where
  same : (w.mem p).SameWait (w'.mem p)
  own : Own cfg w p
  fresh : ∀ i, (w.mem p).gdsWaitInfo = some i → i.serial ∉ givenSerials w'.log
  nowait : (w'.mem p).status ≠ .pendingNowait
  prepared : (w'.mem p).status = .prepared → (w'.mem p).owner ≠ some .mpPutPrepare

/-- A request that is marked as pending first. -/
theorem Giveable.of_pending {p : Ptr} (hs : (w.mem p).SameWait (w'.mem p)) (hown : Own cfg w p)
    (hfresh : ∀ i, (w.mem p).gdsWaitInfo = some i → i.serial ∉ givenSerials w'.log)
    (hst : (w'.mem p).status = .pending) : Giveable cfg w w' p := by
  refine ⟨hs, hown, hfresh, ?_, ?_⟩
  · rw [hst]
    exact nofun
  · rw [hst]
    exact nofun

theorem give {p : Ptr} (h : FillStep cfg w w') (hp : Giveable cfg w w' p) : FillStep cfg w (w'.give p) := by
  have hown : Own cfg w' p := hp.same.own.mpr hp.own
  refine ⟨h.inv.give hown (fun i hi => ?_) hp.nowait hp.prepared, h.gives.trans ⟨_, rfl, fun e he => ?_⟩⟩
  · rw [hp.same.info] at hi
    exact hp.fresh i hi
  · rw [List.mem_singleton.mp he]
    exact ⟨hp.own, hp.same.id, hp.same.info⟩

/-- Giving one away leaves the others as they are. -/
theorem Giveable.after {p q : Ptr} (h : FillStep cfg w w') (hp : Giveable cfg w w' p) (hq : Giveable cfg w w' q)
    (hne : q ≠ p) : Giveable cfg w (w'.give p) q := by
  refine ⟨hq.same, hq.own, fun i hi => ?_, hq.nowait, hq.prepared⟩
  obtain ⟨n, c, hpi, -⟩ := hp.own
  have hlog : givenSerials (w'.give p).log = givenSerials w'.log ++ [n] := by
    show givenSerials (w'.log ++ [.given p (w'.mem p).id (w'.mem p).gdsWaitInfo]) = _
    rw [givenSerials_append, hp.same.info, hpi]
    rfl
  rw [hlog]
  intro hm
  rcases List.mem_append.mp hm with hm | hm
  · exact hq.fresh i hi hm
  · rw [← hq.same.info] at hi
    rw [← hp.same.info] at hpi
    exact hne (h.inv.apart q p i _ hi hpi (List.mem_singleton.mp hm))

/-- The wait infos of distinct requests. -/
theorem giveAll {ps : List Ptr} (h : FillStep cfg w w') (hnd : ps.Nodup) (hps : ∀ p ∈ ps, Giveable cfg w w' p) :
    FillStep cfg w (ps.foldl World.give w') := by
  induction ps generalizing w' with
  | nil => exact h
  | cons p rest ih =>
    obtain ⟨hp, hnd'⟩ := List.nodup_cons.mp hnd
    have hgive := hps p List.mem_cons_self
    refine ih (h.give hgive) hnd' fun q hq => ?_
    exact hgive.after h (hps q (List.mem_cons_of_mem p hq)) fun heq => hp (heq ▸ hq)

end FillStep

/-- A prepared request that can be posted to be waited for. -/
def Pendable (cfg : Config) (w : World) (p : Ptr) : Prop := (∃ fn, (w.mem p).owner = some fn ∧ fn ≠ .mpSendOnStream) ∧
  ((w.mem p).status = .prepared → ∀ i, Own cfg w p → (w.mem p).gdsWaitInfo = some i → i.serial ∉ givenSerials w.log)

theorem Pendable.of_putHandle {w : World} {p : Ptr} (h : FillInv cfg none w)
    (ho : (w.mem p).owner = some .mpPutPrepare) : Pendable cfg w p :=
  ⟨⟨_, ho, by decide⟩, fun hst i hown hi => h.fresh p i (by simp) (.inr ⟨hst, ho⟩) hown hi⟩

theorem Pendable.of_sendHandle {w : World} {p : Ptr} (h : FillInv cfg none w) (hp : SendHandle w p) (hs : ¬ Spent w p) :
    Pendable cfg w p := by
  obtain ⟨fn, ho, hfn, -⟩ := hp.owner cfg
  exact ⟨⟨fn, ho, hfn⟩, fun _ i hown hi => h.unspent hown hs hi⟩

theorem Pendable.setReq {w : World} {p q : Ptr} (h : Pendable cfg w q) {g : Request → Request}
    (hg : (w.mem p).SameJob (g (w.mem p)))
    (hst : (g (w.mem p)).status ≠ .prepared) : Pendable cfg (w.setReq p g) q := by
  have hsame : (w.mem q).SameJob ((w.setReq p g).mem q) := .setReq hg q
  obtain ⟨⟨fn, ho, hfn⟩, hfresh⟩ := h
  refine ⟨⟨fn, hsame.owner.trans ho, hfn⟩, fun hprep i hown hi => ?_⟩
  rw [hsame.info] at hi
  refine hfresh ?_ i (hsame.own.mp hown) hi
  rw [World.setReq_mem] at hprep
  split at hprep
  · exact absurd hprep hst
  · exact hprep

/-- Such a request is posted. -/
theorem FillStep.pend {w w' : World} {p : Ptr} (h : FillStep cfg w w') (hp : Pendable cfg w' p)
    (hprep : (w'.mem p).status = .prepared)
    {g : Request → Request} (hg : (w'.mem p).SameJob (g (w'.mem p))) : FillStep cfg w (w'.setReq p g) := by
  obtain ⟨⟨fn, ho, hfn⟩, hfresh⟩ := hp
  exact ⟨h.inv.pend ho hfn (hfresh hprep) hg, h.gives⟩

/-- Filling in the work request. -/
theorem Quiet.built {w : World} {fn : Fn} {c : Nat} {type : ReqType} {st : State} {flags : Nat} {g : Request → Request}
    (hg : ∀ r : Request, r.flags = 0 → Request.SameWait { r with flags := flags } (g r)) :
    Quiet (w.begun cfg fn c type st flags) ((w.take fn c (cfg.mpiRank c) type st).setReq w.nextFree g) := by
  have hzero := (w.take_mem fn c (cfg.mpiRank c) type st).2.2.2.2.1
  refine ⟨fun q => .inl ?_, fun _ => rfl, rfl, .of_log rfl⟩
  rw [World.begun, World.setReq_mem, World.setReq_mem]
  split
  · exact hg _ hzero
  · exact .refl _

namespace Quiet
variable (cfg : Config) (w : World) (fn : Fn) (c : Nat) (type : ReqType) (st : State)

theorem buildSend (buf : Nat) (size : Int) (reg : Reg) : Quiet (w.begun cfg fn c type st 0)
    ((w.take fn c (cfg.mpiRank c) type st).buildSend cfg c w.nextFree buf size reg) := by
  unfold World.buildSend
  exact built fun r hr => ⟨⟨rfl, rfl, rfl, rfl, hr, rfl⟩, fun h => h, fun h => h⟩

theorem buildSendv (v : List Iovec) (reg : Reg) : Quiet (w.begun cfg fn c type st 0)
    ((w.take fn c (cfg.mpiRank c) type st).buildSendv cfg c w.nextFree v reg) := by
  unfold World.buildSendv
  exact built fun r hr => ⟨⟨rfl, rfl, rfl, rfl, hr, rfl⟩, fun h => h, fun h => h⟩

theorem buildRecv (buf : Nat) (size : Int) (reg : Reg) : Quiet (w.begun cfg fn c type st 0)
    ((w.take fn c (cfg.mpiRank c) type st).buildRecv cfg w.nextFree buf size reg) := by
  unfold World.buildRecv
  refine built fun r hr => ?_
  split
  · exact ⟨⟨rfl, rfl, rfl, rfl, hr, rfl⟩, fun h => h, fun h => h⟩
  · exact ⟨⟨rfl, rfl, rfl, rfl, hr, rfl⟩, fun h => h, fun h => h⟩

theorem buildRecvv (v : List Iovec) (reg : Reg) : Quiet (w.begun cfg fn c type st 0)
    ((w.take fn c (cfg.mpiRank c) type st).buildRecvv w.nextFree v reg) := by
  unfold World.buildRecvv
  exact built fun r hr => ⟨⟨rfl, rfl, rfl, rfl, hr, rfl⟩, fun h => h, fun h => h⟩

theorem buildPut (src : Nat) (size : Int) (reg : Reg) (displ : Nat) (win : Window) (flags : Nat) :
    Quiet (w.begun cfg fn c type st flags)
      ((w.take fn c (cfg.mpiRank c) type st).buildPut c w.nextFree src size reg displ win flags) := by
  unfold World.buildPut
  exact built fun r _ => ⟨⟨rfl, rfl, rfl, rfl, rfl, rfl⟩, fun h => h, fun h => h⟩

theorem buildGet (op : Opcode) (dst : Nat) (size : Int) (reg : Reg) (displ : Nat) (win : Window) :
    Quiet (w.begun cfg fn c type st 0)
      ((w.take fn c (cfg.mpiRank c) type st).buildGet op c w.nextFree dst size reg displ win) := by
  unfold World.buildGet
  exact built fun r hr => ⟨⟨rfl, rfl, rfl, rfl, hr, rfl⟩, fun h => h, fun h => h⟩

end Quiet

/-! A request that is waited for. -/

namespace FillInv
variable {w : World} {p : Ptr}

theorem own_of_canBeWaited (h : FillInv cfg none w) (hmade : MadePreparing cfg w p)
    (hw : (w.mem p).canBeWaited = true) : Own cfg w p := by
  obtain ⟨fn, ho, hfn⟩ := hmade
  refine h.own p fn (by simp) ho hfn fun hput => ?_
  have hrx := h.puts p fn ho hput
  unfold Request.canBeWaited at hw
  rw [hrx] at hw
  simp only [Bool.false_or, Bool.and_eq_true, Bool.not_eq_true'] at hw
  exact hw.2

theorem own_of_nowait (h : FillInv cfg none w) (he : cfg.useEventSync = false) (hst : (w.mem p).status = .pendingNowait)
    (hw : (w.mem p).canBeWaited = true) : Own cfg w p := by
  obtain ⟨fn, ho, hne⟩ := h.maker p hst
  refine h.own_of_canBeWaited ⟨fn, ho, ?_⟩ hw
  cases fn with
  | mpSendOnStream => exact absurd rfl hne
  | _ => simp [Fn.preparesWait, he]

/-- What a wait on a stream gives away without event sync. -/
theorem own_of_streamWait (h : FillInv cfg none w) (he : cfg.useEventSync = false) (hw : (w.mem p).canBeWaited = true)
    (hst : (w.mem p).status = .pendingNowait ∨ (w.mem p).status = .complete)
    (hready : (w.mem p).status = .complete → ¬ Spent w p ∧ MadePreparing cfg w p) :
    Own cfg w p ∧ ∀ i, (w.mem p).gdsWaitInfo = some i → i.serial ∉ givenSerials w.log := by
  rcases hst with hst | hst
  · have hown := h.own_of_nowait he hst hw
    exact ⟨hown, fun i hi => h.fresh p i (by simp) (.inl hst) hown hi⟩
  · obtain ⟨hs, hmade⟩ := hready hst
    have hown := h.own_of_canBeWaited hmade hw
    exact ⟨hown, fun i hi => h.unspent hown hs hi⟩

end FillInv

end LibMp
