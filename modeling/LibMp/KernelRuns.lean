import LibMp.Kernel
import LibMp.CommRuns

/- Runs of the calls for kernels: which descriptors a block has when it is given
   away, how long it keeps them, and when a call writes past an array.

   A history records what the calls were for: the descriptors since the last
   `comm_prepared_requests`, and for each such call the block it returned and
   the descriptors before it. The blocks follow their ring (`Ring.Holds`), and
   the current one is the history of its own batch. -/
namespace LibMp
variable {cc : CommConfig}

/-! ## The runs -/

inductive KernelCall where
  | prepare (op : KernelOp)
  | preparedRequests

/-- How many descriptors of each kind the calls since the last
`comm_prepared_requests` are for. -/
def sinceGiven (calls : List KernelCall) : DescKind → Nat :=
  calls.foldl (fun m call =>
    match call with
    | .prepare op => Function.update m op.kind (m op.kind + op.count)
    | .preparedRequests => fun _ => 0) fun _ => 0

theorem sinceGiven_prepare (calls : List KernelCall) (op : KernelOp) (k : DescKind) :
    sinceGiven (calls ++ [.prepare op]) k =
      if k = op.kind then sinceGiven calls op.kind + op.count else sinceGiven calls k := by
  rw [sinceGiven, List.foldl_append, List.foldl_cons, List.foldl_nil]
  exact Function.update_apply ..

theorem sinceGiven_give (calls : List KernelCall) (k : DescKind) :
    sinceGiven (calls ++ [.preparedRequests]) k = 0 := by
  rw [sinceGiven, List.foldl_append]
  rfl

/-- The blocks returned so far, each with the descriptors prepared for it, and
the descriptors prepared since. -/
structure KernelHistory where
  given : List (Nat × Batch) := []
  pending : Batch := fun _ => []

/-- Between two calls for kernels anything may happen to a process but for its
blocks. -/
def SameBlocks (c c₁ : Comm) : Prop := c₁.pdreqs = c.pdreqs ∧ c₁.dreqIdx = c.dreqIdx

theorem SameBlocks.ring {c c₁ : Comm} (h : SameBlocks c c₁) : c₁.ring = c.ring := by
  rw [Comm.ring, Comm.ring, h.1, h.2]

theorem SameBlocks.given (c : Comm) (tape : List Ans) (arrivals : List (List (Nat × Nat))) :
    SameBlocks c (c.given tape arrivals) := ⟨rfl, rfl⟩

/-- Runs of calls that are accepted: each prepare call returns 0. A call that
writes past an array ends the run. -/
inductive KernelRun (cc : CommConfig) : List KernelCall → Option Comm → KernelHistory → Prop where
  | start : KernelRun cc [] (some Comm.init) {}
  | prepare {calls c h c₁ op req c'} : KernelRun cc calls (some c) h → SameBlocks c c₁ →
      op.run cc c₁ = (.ok (0, req), c') →
      KernelRun cc (calls ++ [.prepare op]) (some c') { h with
        pending := Function.update h.pending op.kind (h.pending op.kind ++ op.descs cc req c₁ c') }
  | overrun {calls c h c₁ op c'} : KernelRun cc calls (some c) h → SameBlocks c c₁ →
      op.run cc c₁ = (.error .overrun, c') → KernelRun cc (calls ++ [.prepare op]) none h
  | give {calls c h c₁ b c'} : KernelRun cc calls (some c) h → SameBlocks c c₁ →
      Kernel.commPreparedRequests c₁ = (.ok b, c') →
      KernelRun cc (calls ++ [.preparedRequests]) (some c')
        { given := h.given ++ [(b, h.pending)], pending := fun _ => [] }

/-! ## The invariant -/

/-- Each block given away is in its turn, and `descs` are what the blocks had
then. -/
def Delivered (given : List (Nat × Batch)) (descs : List CommDevDescs) : Prop :=
  descs.length = given.length ∧
  ∀ i d x, descs[i]? = some d → given[i]? = some x → d.Fills x.2 ∧ x.1 = i % nDreqs

/-- The current block has what is pending, and the others follow the ring. -/
structure KernelInv (calls : List KernelCall) (c : Comm) (h : KernelHistory) : Prop where
  count : ∀ k, (h.pending k).length = sinceGiven calls k
  bound : ∀ k, sinceGiven calls k ≤ maxNDescs
  fills : c.ring.current.Fills h.pending
  blocks : ∃ descs, Ring.Holds nDreqs c.ring descs c.ring.current ∧ Delivered h.given descs

namespace KernelInv
variable {calls : List KernelCall} {c c' : Comm} {h : KernelHistory}

theorem init : KernelInv [] Comm.init {} where
  count _ := rfl
  bound _ := Nat.zero_le _
  fills := CommDevDescs.fills_blank
  blocks := ⟨[], .init, rfl, fun i d x hd => by simp at hd⟩

theorem of_same {c₁ : Comm} (hi : KernelInv calls c h) (hs : SameBlocks c c₁) : KernelInv calls c₁ h where
  count := hi.count
  bound := hi.bound
  fills := by rw [hs.ring]; exact hi.fills
  blocks := by rw [hs.ring]; exact hi.blocks

/-- A prepare call that returns 0 extends what is pending. -/
theorem prepare {op : KernelOp} {xs : List KernelDesc} (hi : KernelInv calls c h) (hlen : xs.length = op.count)
    (ha : Appended op.kind xs c c') : KernelInv (calls ++ [.prepare op]) c'
      { h with pending := Function.update h.pending op.kind (h.pending op.kind ++ xs) } where
  count k := by
    show (Function.update h.pending op.kind (h.pending op.kind ++ xs) k).length = _
    rw [sinceGiven_prepare, Function.update_apply]
    split
    · rw [List.length_append, hi.count, hlen]
    · exact hi.count k
  bound k := by
    rw [sinceGiven_prepare]
    split
    · have hn : c.ring.current.n op.kind = sinceGiven calls op.kind := by rw [(hi.fills _).1, hi.count]
      rcases ha.room with rfl | hroom
      · rw [← hlen]
        exact hi.bound op.kind
      · rwa [hn, hlen] at hroom
    · exact hi.bound k
  fills := by
    rw [ha.ring, Ring.fill_current]
    exact hi.fills.pushAll op.kind xs
  blocks := by
    obtain ⟨descs, hr, hd⟩ := hi.blocks
    rw [ha.ring, Ring.fill_current]
    exact ⟨descs, hr.fill _, hd⟩

/-- `comm_prepared_requests` gives away what is pending. -/
theorem give {b : Nat} (hi : KernelInv calls c h) (hb : b = c.ring.idx) (hr : c'.ring = c.ring.give nDreqs {}) :
    KernelInv (calls ++ [.preparedRequests]) c' { given := h.given ++ [(b, h.pending)], pending := fun _ => [] } where
  count k := (sinceGiven_give calls k).symm
  bound k := by
    rw [sinceGiven_give]
    exact Nat.zero_le _
  fills := by
    rw [hr, Ring.give_current]
    exact CommDevDescs.fills_blank
  blocks := by
    obtain ⟨descs, hring, hlen, hd⟩ := hi.blocks
    rw [hr, Ring.give_current]
    refine ⟨descs ++ [c.ring.current], hring.give, by simp [hlen], fun i d x hdi hxi => ?_⟩
    by_cases hlt : i < descs.length
    · rw [List.getElem?_append_left hlt] at hdi
      rw [List.getElem?_append_left (hlen ▸ hlt)] at hxi
      exact hd i d x hdi hxi
    · -- the block of this call
      obtain rfl : i = descs.length := by
        have := (List.getElem?_eq_some_iff.mp hdi).1
        rw [List.length_append, List.length_singleton] at this
        omega
      rw [List.getElem?_concat_length] at hdi
      rw [hlen, List.getElem?_concat_length] at hxi
      cases hdi
      cases hxi
      exact ⟨hi.fills, hb.trans hring.idx⟩

end KernelInv

/-- A run that goes on keeps the invariant; a run that ends past an array had no
room for its last call. -/
theorem KernelRun.inv {calls : List KernelCall} {out : Option Comm} {h : KernelHistory}
    (hrun : KernelRun cc calls out h) :
    match out with
    | some c => KernelInv calls c h
    | none => ∃ k, maxNDescs < sinceGiven calls k := by
  induction hrun with
  | start => exact .init
  | @prepare calls c h c₁ op req c' hrun hs hcall ih =>
    obtain ⟨hlen, ha⟩ := (Prog.wp_ok hcall).mp op.prepares rfl
    exact (ih.of_same hs).prepare hlen ha
  | @overrun calls c h c₁ op c' hrun hs hcall ih =>
    have hn := (Prog.wp_error hcall).mp op.prepares rfl
    have hi := ih.of_same hs
    rw [(hi.fills _).1, hi.count] at hn
    exact ⟨op.kind, by rwa [sinceGiven_prepare, if_pos rfl]⟩
  | @give calls c h c₁ b c' hrun hs hcall ih =>
    obtain ⟨hb, hr, -⟩ := (Prog.wp_ok hcall).mp commPreparedRequests_spec
    exact (ih.of_same hs).give hb hr

/-! ## The arrays -/

/-- No call has written past an array, and no counter of the current block is
above the size of its array. -/
def InBounds (out : Option Comm) : Prop := ∃ c, out = some c ∧ ∀ k, c.ring.current.n k ≤ maxNDescs

/-- The writes stay in the arrays exactly as long as the calls since the last
`comm_prepared_requests` are for at most `max_n_descs` descriptors of a kind. -/
theorem kernel_descs_in_bounds {calls : List KernelCall} {out : Option Comm} {h : KernelHistory}
    (hrun : KernelRun cc calls out h) : InBounds out ↔ ∀ k, sinceGiven calls k ≤ maxNDescs := by
  have hinv := hrun.inv
  cases out with
  | some c =>
    refine ⟨fun _ => hinv.bound, fun hb => ⟨c, rfl, fun k => ?_⟩⟩
    rw [(hinv.fills k).1, hinv.count]
    exact hb k
  | none =>
    obtain ⟨k, hk⟩ := hinv
    constructor
    · rintro ⟨c, hc, -⟩
      cases hc
    · exact fun hb => absurd (hb k) (Nat.not_le.mpr hk)

/-- With successful answers the blocks are there after the first use. -/
theorem dreqs_run (c : Comm) : dreqs (c.given [] []) =
    (.ok c.ring.current, { c.given [] [] with pdreqs := some c.ring.slots, dreqIdx := c.ring.idx }) := by
  obtain ⟨sys, ready, reqs, arrivals, regs, pdreqs, dreqIdx⟩ := c
  cases pdreqs <;> rfl

/-- The counter goes up. -/
theorem nextDesc_run (k : DescKind) (c : Comm) : nextDesc k (c.given [] []) = (.ok (c.ring.current.n k),
    { c.given [] [] with pdreqs := some (c.ring.fill (·.bump k)).slots, dreqIdx := c.ring.idx }) := by
  rw [nextDesc, Prog.bind_ok (dreqs_run c)]
  rfl

/-- With successful answers `comm_prepare_wait_ready` returns 0, or writes past
the array. -/
theorem prepareWaitReady_result {rank : Nat} (hr : rank < cc.commSize) (c : Comm) :
    ((KernelOp.prepareWaitReady rank).run cc (c.given [] [])).1 =
      if c.ring.current.n .ready < maxNDescs then .ok (0, none) else .error .overrun := by
  have hinner : ∀ c₁ : Comm, ∃ c₂, prepareReadySem cc rank (c₁.given [] []) =
      (.ok (0, cc.readyTable + 4 * rank, c₁.ready.readyValues rank), c₂) := by
    intro c₁
    rw [prepareReadySem, Prog.bind_ok (commMpiRankToPeer_run hr _)]
    exact ⟨_, rfl⟩
  obtain ⟨c₂, hcall⟩ := hinner { c with pdreqs := some (c.ring.fill (·.bump .ready)).slots, dreqIdx := c.ring.idx }
  have hprep : Kernel.commPrepareWaitReady cc rank (c.given [] []) =
      (storeDesc .ready (c.ring.current.n .ready) (.isem32 (cc.readyTable + 4 * rank) (c.ready.readyValues rank)) >>=
        fun _ => pure 0) c₂ := by
    rw [Kernel.commPrepareWaitReady, Prog.bind_ok (commMpiRankToPeer_run hr _), Prog.bind_ok (nextDesc_run _ c)]
    exact Prog.bind_ok hcall _
  rw [KernelOp.run, Prog.bind_run, hprep, storeDesc, Prog.bind_run, Prog.bind_run, Prog.require]
  by_cases hroom : c.ring.current.n .ready < maxNDescs
  · rw [if_pos (decide_eq_true hroom), if_pos hroom]
    rfl
  · rw [if_neg (fun h => hroom (of_decide_eq_true h)), if_neg hroom]
    rfl

/-- And `comm_prepared_requests` returns the current block. -/
theorem preparedRequests_returns (c : Comm) :
    Kernel.commPreparedRequests (c.given [] []) =
      (.ok c.ring.idx, (Kernel.commPreparedRequests (c.given [] [])).2) := by
  have hrun : (Kernel.commPreparedRequests (c.given [] [])).1 = .ok c.ring.idx := by
    rw [Kernel.commPreparedRequests, Prog.bind_ok (dreqs_run c)]
    rfl
  exact Prod.ext hrun rfl

/-- A call of `comm_prepare_wait_ready` for rank 1. -/
def waitReadyOfOne : KernelCall := .prepare (.prepareWaitReady 1)

theorem sinceGiven_waits (calls : List KernelCall) (n : Nat) (k : DescKind) :
    sinceGiven (calls ++ List.replicate n waitReadyOfOne) k = sinceGiven calls k + if k = .ready then n else 0 := by
  induction n with
  | zero => simp
  | succ n ih =>
    rw [List.replicate_succ', ← List.append_assoc, waitReadyOfOne, sinceGiven_prepare, ← waitReadyOfOne]
    split
    · rename_i hk
      have hk' : k = .ready := hk
      rw [if_pos hk'] at ih ⊢
      rw [show (KernelOp.prepareWaitReady 1).kind = k from hk'.symm, ih]
      rfl
    · rename_i hk
      have hk' : k ≠ .ready := hk
      rw [ih, if_neg hk', if_neg hk']

theorem KernelRun.count {calls : List KernelCall} {c : Comm} {h : KernelHistory} (hrun : KernelRun cc calls (some c) h)
    (k : DescKind) : c.ring.current.n k = sinceGiven calls k := by
  rw [(hrun.inv.fills k).1, hrun.inv.count]

/-- As long as there is room in the array, calls return 0. -/
theorem waitReady_returns {calls : List KernelCall} {c₀ : Comm} {h₀ : KernelHistory}
    (hrun₀ : KernelRun pairOfRanks calls (some c₀) h₀) {n : Nat} (hn : sinceGiven calls .ready + n ≤ maxNDescs) :
    ∃ c h, KernelRun pairOfRanks (calls ++ List.replicate n waitReadyOfOne) (some c) h ∧ h.given = h₀.given := by
  induction n with
  | zero => exact ⟨c₀, h₀, by rwa [List.replicate_zero, List.append_nil], rfl⟩
  | succ n ih =>
    obtain ⟨c, h, hrun, hgiven⟩ := ih (by omega)
    have hres := @prepareWaitReady_result pairOfRanks 1 (by decide) c
    rw [hrun.count, sinceGiven_waits, if_pos rfl, if_pos (by omega)] at hres
    have hcall : (KernelOp.prepareWaitReady 1).run pairOfRanks (c.given [] []) = (.ok (0, none), _) :=
      Prod.ext hres rfl
    have hrun' := KernelRun.prepare hrun (.given c [] []) hcall
    rw [← waitReadyOfOne, List.append_assoc, ← List.replicate_succ'] at hrun'
    exact ⟨_, _, hrun', hgiven⟩

/-- 32 waits for a kernel, 32 more after they were given away: the arrays are full,
and nothing is written past them. -/
theorem kernel_descs_in_bounds_of_full : ∃ c h, KernelRun pairOfRanks
    (List.replicate 32 waitReadyOfOne ++ [.preparedRequests] ++ List.replicate 32 waitReadyOfOne) (some c) h ∧
    c.ring.current.n .ready = maxNDescs ∧ InBounds (some c) := by
  obtain ⟨c₁, h₁, h₂, -⟩ := waitReady_returns .start (show 0 + 32 ≤ maxNDescs by decide)
  have hgive := KernelRun.give h₂ (.given c₁ [] []) (preparedRequests_returns c₁)
  have hnone := sinceGiven_give ([] ++ List.replicate 32 waitReadyOfOne)
  obtain ⟨c, h, hrun, -⟩ := waitReady_returns hgive (show _ + 32 ≤ maxNDescs by rw [hnone]; decide)
  refine ⟨c, h, hrun, ?_, (kernel_descs_in_bounds hrun).mpr fun k => ?_⟩
  · rw [hrun.count, sinceGiven_waits, hnone]
    rfl
  · rw [sinceGiven_waits, hnone]
    cases k <;> decide

/-- The 33rd call of `comm_prepare_wait_ready` writes past the array `ready`. -/
theorem waits_past_the_array :
    ∃ h, KernelRun pairOfRanks (List.replicate 33 waitReadyOfOne) none h ∧ ¬InBounds none := by
  obtain ⟨c, h, hrun, -⟩ := waitReady_returns .start (show 0 + maxNDescs ≤ maxNDescs by decide)
  have hres := @prepareWaitReady_result pairOfRanks 1 (by decide) c
  rw [hrun.count, sinceGiven_waits, if_neg (by decide)] at hres
  have hcall : (KernelOp.prepareWaitReady 1).run pairOfRanks (c.given [] []) = (.error .overrun, _) :=
    Prod.ext hres rfl
  refine ⟨h, ?_, fun ⟨c, hc, _⟩ => by cases hc⟩
  rw [show 33 = maxNDescs + 1 from rfl, List.replicate_succ']
  exact .overrun hrun (.given c [] []) hcall

/-! ## The blocks -/

/-- A block that was given away has the descriptors prepared for it until the
127th call after that returns, and blocks given away less than 128 calls apart
are different. -/
structure BlocksHold (c : Comm) (h : KernelHistory) : Prop where
  kept : ∀ i b batch, h.given[i]? = some (b, batch) → h.given.length - (i + 1) < 127 → (c.ring.slots b).Fills batch
  distinct : ∀ i j x y, h.given[i]? = some x → h.given[j]? = some y → i < j → j - i < 128 → x.1 ≠ y.1

theorem KernelInv.blocksHold {calls : List KernelCall} {c : Comm} {h : KernelHistory} (hi : KernelInv calls c h) :
    BlocksHold c h := by
  obtain ⟨descs, hring, hlen, hd⟩ := hi.blocks
  have hat : ∀ (i : Nat) x, h.given[i]? = some x → ∃ d, descs[i]? = some d := by
    intro i x hx
    have hlt := (List.getElem?_eq_some_iff.mp hx).1
    exact ⟨_, List.getElem?_eq_getElem (hlen ▸ hlt)⟩
  constructor
  · intro i b batch hx hn
    obtain ⟨d, hdi⟩ := hat i _ hx
    obtain ⟨hfills, hb⟩ := hd i d _ hdi hx
    have hlt := (List.getElem?_eq_some_iff.mp hx).1
    have hkept := hring.kept i d hdi (by rw [hlen, nDreqs]; omega)
    rw [show b = i % nDreqs from hb, hkept]
    exact hfills
  · intro i j x y hx hy hij hn
    obtain ⟨d, hdi⟩ := hat i x hx
    obtain ⟨d', hdj⟩ := hat j y hy
    rw [(hd i d x hdi hx).2, (hd j d' y hdj hy).2]
    exact mod_ne_of_lt hij hn

/-- A run of calls that return 0, with at most `max_n_descs` descriptors of a
kind before each `comm_prepared_requests`: it never leaves the arrays, and each
block returned has exactly what was prepared for it, in order, for as long as
its kernel may run. -/
theorem kernel_blocks_hold {calls : List KernelCall} {out : Option Comm} {h : KernelHistory}
    (hrun : KernelRun cc calls out h) (hfew : ∀ pre, pre <+: calls → ∀ k, sinceGiven pre k ≤ maxNDescs) :
    ∃ c, out = some c ∧ BlocksHold c h := by
  have hinv := hrun.inv
  cases out with
  | some c => exact ⟨c, rfl, hinv.blocksHold⟩
  | none =>
    obtain ⟨k, hk⟩ := hinv
    exact absurd (hfew calls (List.prefix_refl calls) k) (Nat.not_le.mpr hk)

/-- The calls before are a run, too. -/
theorem KernelRun.before {calls pre : List KernelCall} {out : Option Comm} {h : KernelHistory}
    (hrun : KernelRun cc calls out h) (hout : out ≠ none) (hpre : pre <+: calls) :
    ∃ c h, KernelRun cc pre (some c) h := by
  induction hrun with
  | start =>
    obtain rfl := List.prefix_nil.mp hpre
    exact ⟨_, _, .start⟩
  | prepare hrun hs hcall ih =>
    rcases List.prefix_concat_iff.mp hpre with rfl | hpre
    · exact ⟨_, _, .prepare hrun hs hcall⟩
    · exact ih nofun hpre
  | overrun => exact absurd rfl hout
  | give hrun hs hcall ih =>
    rcases List.prefix_concat_iff.mp hpre with rfl | hpre
    · exact ⟨_, _, .give hrun hs hcall⟩
    · exact ih nofun hpre

/-- `n` blocks of `m` waits for rank 1, each given away. -/
def waitRounds (m n : Nat) : List KernelCall :=
  (List.replicate n (List.replicate m waitReadyOfOne ++ [.preparedRequests])).flatten

theorem waitRounds_run {m : Nat} (hm : m ≤ maxNDescs) (n : Nat) : ∃ c h,
    KernelRun pairOfRanks (waitRounds m n) (some c) h ∧
    sinceGiven (waitRounds m n) .ready = 0 ∧ h.given.length = n ∧ ∀ x ∈ h.given, (x.2 .ready).length = m := by
  induction n with
  | zero => exact ⟨_, _, .start, rfl, rfl, nofun⟩
  | succ n ih =>
    obtain ⟨c₁, h₁, hrun₁, hnone, hlen, hall⟩ := ih
    obtain ⟨c₂, h₂, hrun₂, hgiven⟩ := waitReady_returns hrun₁ (show _ + m ≤ _ by omega)
    have hgive := KernelRun.give hrun₂ (.given c₂ [] []) (preparedRequests_returns c₂)
    have hpending : (h₂.pending .ready).length = m := by
      rw [hrun₂.inv.count, sinceGiven_waits, hnone, if_pos rfl, Nat.zero_add]
    have hcalls : waitRounds m n ++ List.replicate m waitReadyOfOne ++ [.preparedRequests] = waitRounds m (n + 1) := by
      unfold waitRounds
      rw [List.replicate_succ', List.flatten_append, List.flatten_singleton, List.append_assoc]
    rw [hcalls] at hgive
    refine ⟨_, _, hgive, ?_, ?_, fun x hx => ?_⟩
    · rw [← hcalls, sinceGiven_give]
    · show (h₂.given ++ [_]).length = n + 1
      rw [List.length_append, hgiven, hlen]
      rfl
    · rcases List.mem_append.mp hx with hx | hx
      · exact hall x (hgiven ▸ hx)
      · obtain rfl := List.mem_singleton.mp hx
        exact hpending

/-- 130 full blocks of waits, past the end of the ring: the fourth, given away
before the last 126, still has what was prepared for it, and no later block is
the same. -/
theorem kernel_blocks_hold_of_rounds : ∃ c h, KernelRun pairOfRanks (waitRounds 32 130) (some c) h ∧ BlocksHold c h ∧
    ∃ b batch, h.given[3]? = some (b, batch) ∧ (batch .ready).length = 32 ∧ (c.ring.slots b).Fills batch ∧
      ∀ j y, h.given[j]? = some y → 3 < j → b ≠ y.1 := by
  obtain ⟨c, h, hrun, -, hlen, hall⟩ := waitRounds_run (show 32 ≤ maxNDescs by decide) 130
  have hfew : ∀ pre, pre <+: waitRounds 32 130 → ∀ k, sinceGiven pre k ≤ maxNDescs := by
    intro pre hpre
    obtain ⟨_, _, hbefore⟩ := hrun.before nofun hpre
    exact hbefore.inv.bound
  obtain ⟨_, hc, hblocks⟩ := kernel_blocks_hold hrun hfew
  cases hc
  obtain ⟨⟨b, batch⟩, hthree⟩ : ∃ x, h.given[3]? = some x := ⟨_, List.getElem?_eq_getElem (by omega)⟩
  refine ⟨c, h, hrun, hblocks, b, batch, hthree, hall _ (List.mem_of_getElem? hthree),
    hblocks.kept 3 b batch hthree (by omega), fun j y hy hj => ?_⟩
  have hj' := (List.getElem?_eq_some_iff.mp hy).1
  exact hblocks.distinct 3 j _ y hthree hy hj (by omega)

end LibMp
