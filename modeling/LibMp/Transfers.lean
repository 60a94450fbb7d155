import LibMp.Kernel
import LibMp.Making
import LibMp.CommRuns

/- The four calls of COMM that move a buffer: `comm_irecv`, `comm_isend`,
   `comm_isend_on_stream` and `comm_prepare_isend`.

   They register the buffer if `*creg` has no registration yet, give the number
   of bytes to libmp as an `int`, and record the request. What such a call can
   do is `Ends`: libmp refuses the transfer, `get_descriptors` fails for a send
   that is prepared, or the request is recorded. The error paths deregister
   `*creg` whoever registered it, and the number of bytes ends up in the 32 bits
   of the entry of the work request. -/
namespace LibMp

/-! ## The calls -/

inductive TransferKind where
  | irecv
  | isend
  | isendOnStream (st : Stream)
  | prepareIsend
  deriving DecidableEq

/-- A call, with its arguments. -/
structure Transfer where
  kind : TransferKind
  buf : Nat
  size : Nat
  type : MpiType
  creg : Nat
  rank : Nat

namespace Transfer
variable (cc : CommConfig) (t : Transfer)

def run : CM (Int × Option Ptr) :=
  match t.kind with
  | .irecv => commIrecv cc t.buf t.size t.type t.creg t.rank
  | .isend => commIsend cc t.buf t.size t.type t.creg t.rank
  | .isendOnStream st => commIsendOnStream cc t.buf t.size t.type t.creg t.rank st
  | .prepareIsend => Kernel.commPrepareIsend cc t.buf t.size t.type t.creg t.rank

/-- The call of libmp for `n` bytes. -/
def op (n : Int) (peer : Nat) (reg : Reg) : Op :=
  match t.kind with
  | .irecv => .irecv t.buf n peer reg
  | .isend => .isend t.buf n peer reg
  | .isendOnStream st => .isendOnStream t.buf n peer reg st
  | .prepareIsend => .sendPrepare t.buf n peer reg

/-- What the call does first. -/
def prelude : CM (Nat × Nat × Reg) := commPrelude cc t.size t.type t.creg t.rank

/-- The call of libmp with what `prelude` returns. -/
def post (x : Nat × Nat × Reg) : M (Int × Option Ptr) := (t.op (toInt x.1) x.2.1 x.2.2).run cc.mp

/-- How a call from `c` ends. In the second case the counter of the descriptors
has gone up. -/
inductive Ends (c : Comm) : Int × Option Ptr → Comm → Prop where
  | refused {x c₁ rc req y z} : t.prelude cc c = (.ok x, c₁) → t.post cc x c₁.sys = (.ok (rc, req), y) → rc ≠ 0 →
      Ends c (-1, none) { c with sys := z, regs := (c.regs.ensure t.creg).drop t.creg }
  | undescribed {x c₁ p y c'} : t.kind = .prepareIsend → t.prelude cc c = (.ok x, c₁) →
      t.post cc x c₁.sys = (.ok (0, some p), y) → c'.ring = c.ring.fill (·.bump .tx) → c'.reqs = c.reqs →
      Ends c (-1, none) c'
  | posted {x c₁ p y c'} : t.prelude cc c = (.ok x, c₁) → t.post cc x c₁.sys = (.ok (0, some p), y) →
      (y.w.mem p).SameMake (c'.sys.w.mem p) →
      c'.reqs = c.reqs ++ [⟨p, (c'.sys.w.mem p).peer, (c'.sys.w.mem p).id⟩] → Ends c (0, some p) c'

variable {cc t}

/-- The recipe of the call of libmp. It stores the request. -/
theorem op_recipe (n : Int) (peer : Nat) (reg : Reg) :
    ∃ j, (t.op n peer reg).recipe cc.mp = some j ∧ j.fn ≠ .mpIsendv := by
  unfold op
  cases t.kind <;> exact ⟨_, rfl, nofun⟩

/-- A call of libmp that returns 0 has made the request it stores. -/
theorem op_makes {n : Int} {peer : Nat} {reg : Reg} {s y : Sys} {req : Option Ptr}
    (h : (t.op n peer reg).run cc.mp s = (.ok (0, req), y)) :
    ∃ j c, (t.op n peer reg).recipe cc.mp = some j ∧ req = some s.w.nextFree ∧
      Carries cc.mp (j.started cc.mp s.w c) y.w := by
  obtain ⟨j, hj, hfn⟩ := @op_recipe cc t n peer reg
  obtain ⟨c, rest, -, hm, hr⟩ := Op.run_makes hj h rfl
  obtain ⟨hreq, hk, -⟩ := hm _ _ _ hr rfl
  rw [if_neg hfn] at hreq
  exact ⟨j, c, hj, hreq, hk⟩

theorem carries_launchAll {cfg : Config} (w : World) (infos : List (Option SendInfo)) :
    Carries cfg w (launchAll w infos) := by
  induction infos generalizing w with
  | nil => exact .refl w
  | cons info infos ih =>
    cases info with
    | none => exact ih w
    | some info =>
      have hone : Carries cfg w (w.launch info) := .of_mem rfl rfl rfl (List.prefix_append _ _)
      exact hone.trans (ih _)

/-- Descriptors are made from a request that stays as it was made. -/
theorem getSendDescriptors_carries {cfg : Config} (p : Ptr) : Stays (Carries cfg) (getSendDescriptors cfg p) := by
  have hset : ∀ w : World, Carries cfg w (w.setReq p fun r => { r with status := .pendingNowait, stream := none }) :=
    fun w => .setReq w p ⟨rfl, rfl, rfl, rfl, rfl, rfl, rfl, rfl, fun h => h⟩ fun _ => rfl
  refine .bind (Stays.request p) fun r => .bind (.require _ _) fun _ => .ite (.pure _) ?_
  refine .bind (Stays.update hset) fun _ => .bind Stays.returnCode fun _ => .ite (.pure _) ?_
  exact .bind (Stays.update fun w => carries_launchAll w _) fun _ => .pure _

/-- The error path. -/
theorem fail_ok {creg : Nat} {c c' : Comm} {x : Int × Option Ptr}
    (h : (do let _ ← commDeregister creg; return (-1, none) : CM (Int × Option Ptr)) c = (.ok x, c')) :
    x = (-1, none) ∧ ∃ z, c' = { c with sys := z, regs := c.regs.drop creg } := by
  obtain ⟨ret, c₁, h₁, h₂⟩ := Prog.bind_eq_ok h
  cases h₂
  obtain ⟨z, -, hc⟩ := (Prog.wp_ok h₁).mp (commDeregister_spec creg)
  exact ⟨rfl, z, hc⟩

/-- `comm_irecv`, `comm_isend` and `comm_isend_on_stream` have one text. -/
theorem run_commPost (hk : t.kind ≠ .prepareIsend) : t.run cc =
    commPost cc t.size t.type t.creg t.rank fun n peer reg => (t.op n peer reg).run cc.mp := by
  obtain ⟨kind, buf, size, type, creg, rank⟩ := t
  cases kind with
  | irecv => rfl
  | isend => rfl
  | isendOnStream st => rfl
  | prepareIsend => exact absurd rfl hk

/-- What the four calls begin with: libmp refuses the transfer, or the call
goes on with the request. -/
theorem begins {f : Ptr → CM (Int × Option Ptr)} {c c' : Comm} {x : Int × Option Ptr} (h : (do
    let (nbytes, peer, reg) ← commPrelude cc t.size t.type t.creg t.rank
    let (retcode, req) ← mpCall ((t.op (toInt nbytes) peer reg).run cc.mp)
    if retcode ≠ 0 then
      let _ ← commDeregister t.creg
      return (-1, none)
    match req with
    | none => return (0, none)
    | some p => f p) c = (.ok x, c')) :
    t.Ends cc c x c' ∨ ∃ pre c₁ p y, t.prelude cc c = (.ok pre, c₁) ∧ t.post cc pre c₁.sys = (.ok (0, some p), y) ∧
      c₁.reqs = c.reqs ∧ c₁.ring = c.ring ∧ f p { c₁ with sys := y } = (.ok x, c') := by
  obtain ⟨pre, c₁, h₁, h₂⟩ := Prog.bind_eq_ok h
  obtain ⟨-, -, y₁, -, hc₁⟩ := (Prog.wp_ok h₁).mp (commPrelude_spec ..)
  obtain ⟨⟨rc, req⟩, y, hpost, h₄⟩ := mpCall_bind_ok h₂
  dsimp only at h₄
  split at h₄
  · rename_i hrc
    obtain ⟨rfl, z, rfl⟩ := fail_ok h₄
    rw [hc₁]
    exact .inl (.refused h₁ hpost hrc)
  · rename_i hrc
    obtain rfl := not_not.mp hrc
    obtain ⟨j, d, -, rfl, -⟩ := op_makes hpost
    exact .inr ⟨pre, c₁, _, y, h₁, hpost, by rw [hc₁], by rw [hc₁]; rfl, h₄⟩

theorem ends_commPost {c c' : Comm} {x : Int × Option Ptr} (h : commPost cc t.size t.type t.creg t.rank
    (fun n peer reg => (t.op n peer reg).run cc.mp) c = (.ok x, c')) : t.Ends cc c x c' := by
  unfold commPost at h
  rcases begins h with hends | ⟨pre, c₁, p, y, h₁, hpost, hreqs, -, h₂⟩
  · exact hends
  · obtain ⟨_, c₂, h₃, h₄⟩ := Prog.bind_eq_ok h₂
    obtain ⟨-, rfl⟩ := (Prog.wp_ok h₃).mp (commTrackRequest_spec _)
    cases h₄
    refine .posted h₁ hpost (.refl _) ?_
    rw [← hreqs]

theorem ends_prepareIsend (hk : t.kind = .prepareIsend) {c c' : Comm} {x : Int × Option Ptr}
    (h : Kernel.commPrepareIsend cc t.buf t.size t.type t.creg t.rank c = (.ok x, c')) : t.Ends cc c x c' := by
  have hop : ∀ n peer reg, mpSendPrepare cc.mp t.buf n peer reg = (t.op n peer reg).run cc.mp := by
    intro n peer reg
    rw [op, hk]
    rfl
  unfold Kernel.commPrepareIsend at h
  simp only [hop] at h
  rcases begins h with hends | ⟨pre, c₁, p, y, h₁, hpost, hreqs, hring₁, h₂⟩
  · exact hends
  · obtain ⟨i, c₂, h₃, h₄⟩ := Prog.bind_eq_ok h₂
    obtain ⟨-, hring, hp, hsame⟩ := (Prog.wp_ok h₃).mp (nextDesc_spec .tx)
    obtain ⟨retcode, y₂, hdesc, h₅⟩ := mpCall_bind_ok h₄
    split at h₅
    · obtain ⟨rfl, z, rfl⟩ := fail_ok h₅
      refine .undescribed hk h₁ hpost (Eq.trans hring ?_) (Eq.trans hsame.reqs hreqs)
      exact congrArg (Ring.fill · _) hring₁
    · obtain ⟨s, c₃, h₆, h₇⟩ := Prog.bind_eq_ok h₅
      cases h₆
      obtain ⟨_, c₄, h₈, h₉⟩ := Prog.bind_eq_ok h₇
      obtain ⟨-, -, hsame₄⟩ := (Prog.wp_ok h₈).mp (storeDesc_spec (by exact hp) ..)
      obtain ⟨_, c₅, h₁₀, h₁₁⟩ := Prog.bind_eq_ok h₉
      obtain ⟨-, rfl⟩ := (Prog.wp_ok h₁₀).mp (commTrackRequest_spec _)
      cases h₁₁
      refine .posted h₁ hpost ?_ ?_
      · have hcarries : Carries cc.mp c₂.sys.w y₂.w := (getSendDescriptors_carries _).run hdesc
        rw [hsame.world] at hcarries
        show Request.SameMake _ (c₄.sys.w.mem p)
        rw [hsame₄.world]
        exact hcarries.mem _
      · have hall : c₄.reqs = c.reqs := by rw [hsame₄.reqs, hsame.reqs, ← hreqs]
        rw [← hall]

/-- What the calls of COMM that move a buffer do. -/
theorem ends {c c' : Comm} {x : Int × Option Ptr} (h : t.run cc c = (.ok x, c')) : t.Ends cc c x c' := by
  by_cases hk : t.kind = .prepareIsend
  · refine ends_prepareIsend hk ?_
    rw [run, hk] at h
    exact h
  · rw [run_commPost hk] at h
    exact ends_commPost h

end Transfer

variable {cc : CommConfig} {t : Transfer}

/-- A receive of ints from rank 1, with the registration in variable 0. -/
def recvInts (size : Nat) : Transfer := ⟨.irecv, 4096, size, .int, 0, 1⟩

/-! ## Calls that fail -/

namespace Registrations
variable {r : Registrations} {creg : Nat}

/-- A registration made for a call is undone. -/
theorem drop_ensure_none (h : r.creg creg = none) :
    ((r.ensure creg).drop creg).creg = r.creg ∧ ((r.ensure creg).drop creg).opened = r.opened := by
  have hmade : (r.register creg).creg creg = some r.made := Function.update_self ..
  rw [ensure, if_pos h, drop, hmade]
  refine ⟨?_, List.erase_cons_head ..⟩
  show Function.update (Function.update r.creg creg _) creg none = r.creg
  rw [Function.update_idem, ← h, Function.update_eq_self]

/-- One that the caller had is undone too. -/
theorem drop_ensure_some {n : Nat} (h : r.creg creg = some n) : ((r.ensure creg).drop creg).creg creg = none := by
  rw [ensure, if_neg (by simp [h]), drop, h]
  exact Function.update_self ..

end Registrations

/-- The registrations, the table and the counters of the current block are what
they were. -/
structure Reverted (c c' : Comm) : Prop where
  creg : c'.regs.creg = c.regs.creg
  opened : c'.regs.opened = c.regs.opened
  reqs : c'.reqs = c.reqs
  counts : c'.ring.current.n = c.ring.current.n

/-- `mp_send_prepare` succeeds; what can still fail is `get_descriptors`. -/
def Transfer.Prepared (cc : CommConfig) (t : Transfer) (c : Comm) : Prop :=
  t.kind = .prepareIsend ∧ ∃ x c₁ req y, t.prelude cc c = (.ok x, c₁) ∧ t.post cc x c₁.sys = (.ok (0, req), y)

/-- Every transfer that returns -1, in any state: it has undone what it did
exactly if `*creg` had no registration and no descriptor was taken. A
registration that the caller had is undone, and the counter of the descriptors
does not go back. -/
theorem failed_transfer_reverted {c c' : Comm} {req : Option Ptr} (h : t.run cc c = (.ok (-1, req), c')) :
    Reverted c c' ↔ c.regs.creg t.creg = none ∧ ¬ t.Prepared cc c := by
  cases Transfer.ends h with
  | refused hpre hpost hrc =>
    have hnot : ¬ t.Prepared cc c := by
      rintro ⟨-, x', c₁', req', y', hpre', hpost'⟩
      cases hpre.symm.trans hpre'
      cases hpost.symm.trans hpost'
      exact hrc rfl
    cases hreg : c.regs.creg t.creg with
    | none =>
      obtain ⟨hcreg, hopened⟩ := Registrations.drop_ensure_none hreg
      exact ⟨fun _ => ⟨rfl, hnot⟩, fun _ => ⟨hcreg, hopened, rfl, rfl⟩⟩
    | some n =>
      refine ⟨fun hu => ?_, fun hc => by cases hc.1⟩
      have hnone := Registrations.drop_ensure_some hreg
      have hkept := congrFun hu.creg t.creg
      rw [hreg] at hkept
      cases hnone.symm.trans hkept
  | undescribed hk hpre hpost hring hreqs =>
    refine ⟨fun hu => ?_, fun hc => absurd ⟨hk, _, _, _, _, hpre, hpost⟩ hc.2⟩
    -- the descriptor was counted
    have hn := congrFun hu.counts .tx
    have hbump : (c.ring.current.bump .tx).n .tx = c.ring.current.n .tx + 1 := by simp [CommDevDescs.bump]
    rw [hring, Ring.fill_current, hbump] at hn
    omega

/-- The HCA refuses a receive into a buffer that was not registered before. -/
theorem failed_transfer_reverted_of_recv : ∃ c',
    (recvInts 2).run pairOfRanks (Comm.init.given [{}, { rc := 22 }] []) = (.ok (-1, none), c') ∧
      Reverted (Comm.init.given [{}, { rc := 22 }] []) c' := by
  have hrun : (recvInts 2).run pairOfRanks (Comm.init.given [{}, { rc := 22 }] []) = (.ok (-1, none), _) := rfl
  exact ⟨_, hrun, (failed_transfer_reverted hrun).mpr ⟨rfl, fun hp => by cases hp.1⟩⟩

/-- A buffer is registered, and the HCA refuses a receive into it: the caller
has lost the registration. -/
theorem refused_transfer_deregisters : ∃ c c', commRegister 8 0 Comm.init = (.ok 0, c) ∧
    c.regs.creg 0 = some 0 ∧ c.regs.opened = [0] ∧
    (recvInts 2).run pairOfRanks (c.given [{ rc := 22 }] []) = (.ok (-1, none), c') ∧
    c'.regs.creg 0 = none ∧ c'.regs.opened = [] ∧ ¬ Reverted c c' := by
  refine ⟨_, _, rfl, rfl, rfl, rfl, rfl, rfl, fun hu => ?_⟩
  cases congrFun hu.creg 0

-- `get_descriptors` fails for a send that is prepared: the send is counted
example : ∃ c', Transfer.run pairOfRanks ⟨.prepareIsend, 4096, 2, .int, 0, 1⟩
    (Comm.init.given [{}, {}, {}, {}, { rc := 22 }] []) = (.ok (-1, none), c') ∧ c'.ring.current.n .tx = 1 :=
  ⟨_, rfl, rfl⟩

/-! ## The length of a transfer -/

/-- The `sg_list` of a work request, and `num_sge`. -/
def InWr.sgList : InWr → SgList × Nat
  | .sr wr => (wr.sgList, wr.numSge)
  | .rr wr => (wr.sgList, wr.numSge)

/-- The entries of the request's work request. -/
def Request.sgEntries (r : Request) : List Sge :=
  match r.inWr.sgList with
  | (.sgEntry, n) => [r.sgEntry].take n
  | (.udSgEntry, n) => [r.udSgEntry.1, r.udSgEntry.2].take n
  | (.sgv, n) => (r.sgv.getD []).take n

/-- The entry of the payload is the last one: a receive in UD mode has one for
the header before it. -/
def Request.payload (r : Request) : Option Sge := r.sgEntries.getLast?

/-- The payload of the request that a transfer of `n` bytes has made. -/
theorem Transfer.started_payload {n : Int} {peer : Nat} {reg : Reg} {j : Recipe}
    (hj : (t.op n peer reg).recipe cc.mp = some j) {w : World} {c : Nat} {r : Request}
    (hr : ((j.started cc.mp w c).mem w.nextFree).SameMake r) : r.payload = some ⟨t.buf, len32 n, reg.key⟩ := by
  have hsend : r.inWr = sendWr cc.mp c w.nextFree 1 .sgEntry → r.sgEntry = ⟨t.buf, len32 n, reg.key⟩ →
      r.payload = some ⟨t.buf, len32 n, reg.key⟩ := by
    intro hwr hsge
    rw [Request.payload, Request.sgEntries, hwr, hsge]
    rfl
  unfold op at hj
  cases hk : t.kind <;> rw [hk] at hj <;> cases hj
  case irecv =>
    rw [Request.payload, Request.sgEntries, hr.inWr, hr.sgEntry, hr.udSgEntry]
    cases hud : cc.mp.enableUd <;> simp [Recipe.started, recvRecipe, World.buildRecv, hud, InWr.sgList]
  all_goals
    refine hsend ?_ ?_
    · rw [hr.inWr]
      simp [Recipe.started, sendRecipe, World.buildSend]
    · rw [hr.sgEntry]
      simp [Recipe.started, sendRecipe, World.buildSend]

/-- From `size_t` to `int` and from there to 32 bits. -/
theorem len32_toInt (n : Nat) : len32 (toInt (n % 2 ^ 64)) = n % 2 ^ 32 := by
  unfold len32 toInt
  have hmod : Int.bmod ((n % 2 ^ 64 : Nat) : Int) (2 ^ 32) % (2 ^ 32 : Nat) =
      ((n % 2 ^ 64 : Nat) : Int) % (2 ^ 32 : Nat) := Int.bmod_emod ..
  omega

/-- The payload of a transfer that returns 0: the number of bytes in 32 bits. -/
theorem transfer_payload {c c' : Comm} {req : Option Ptr} (h : t.run cc c = (.ok (0, req), c')) : ∃ p key,
    req = some p ∧ (c'.sys.w.mem p).payload = some ⟨t.buf, t.size * t.type.sizeof % 2 ^ 32, key⟩ := by
  cases Transfer.ends h with
  | posted hpre hpost hsame hreqs =>
    obtain ⟨hn, -, -⟩ := (Prog.wp_ok hpre).mp (commPrelude_spec ..)
    obtain ⟨j, d, hj, hreq, hk⟩ := Transfer.op_makes hpost
    cases hreq
    have hpay := Transfer.started_payload hj ((hk.mem _).trans hsame)
    rw [hn, len32_toInt] at hpay
    exact ⟨_, _, rfl, hpay⟩

/-- The call has posted a work request for all its bytes. -/
def Transfer.PostsAll (t : Transfer) (c' : Comm) (req : Option Ptr) : Prop :=
  ∃ p e, req = some p ∧ (c'.sys.w.mem p).payload = some e ∧ e.addr = t.buf ∧ e.length = t.size * t.type.sizeof

/-- Every transfer that returns 0, with any count and in any state: it has
posted all its bytes exactly if they are less than 2^32. -/
theorem transfer_posts_all {c c' : Comm} {req : Option Ptr} (h : t.run cc c = (.ok (0, req), c')) :
    t.PostsAll c' req ↔ t.size * t.type.sizeof < 2 ^ 32 := by
  obtain ⟨p, key, rfl, hpay⟩ := transfer_payload h
  constructor
  · rintro ⟨q, e, hq, he, -, hlen⟩
    cases hq
    cases hpay.symm.trans he
    rw [← hlen]
    exact Nat.mod_lt _ (Nat.two_pow_pos 32)
  · intro hlt
    exact ⟨_, _, rfl, hpay, rfl, Nat.mod_eq_of_lt hlt⟩

/-- Two ints are posted as 8 bytes. -/
theorem transfer_posts_all_of_two : ∃ c', (recvInts 2).run pairOfRanks Comm.init = (.ok (0, some 0), c') ∧
    (recvInts 2).PostsAll c' (some 0) := by
  have hrun : (recvInts 2).run pairOfRanks Comm.init = (.ok (0, some 0), _) := rfl
  exact ⟨_, hrun, (transfer_posts_all hrun).mpr (by decide)⟩

/-- A receive of 2^30 + 1 ints returns 0, and its work request is for 4 bytes. -/
theorem long_transfer_is_shortened : ∃ c', (recvInts (2 ^ 30 + 1)).run pairOfRanks Comm.init = (.ok (0, some 0), c') ∧
    (∃ e, (c'.sys.w.mem 0).payload = some e ∧ e.length = 4) ∧ ¬ (recvInts (2 ^ 30 + 1)).PostsAll c' (some 0) := by
  have hrun : (recvInts (2 ^ 30 + 1)).run pairOfRanks Comm.init = (.ok (0, some 0), _) := rfl
  obtain ⟨p, key, hp, hpay⟩ := transfer_payload hrun
  cases hp
  have hfour : (recvInts (2 ^ 30 + 1)).size * MpiType.int.sizeof % 2 ^ 32 = 4 := by decide
  refine ⟨_, hrun, ⟨_, hpay, hfour⟩, ?_⟩
  rintro ⟨q, e, hq, he, -, hlen⟩
  cases hq
  cases hpay.symm.trans he
  exact absurd (hfour.symm.trans hlen) (by decide)

end LibMp
