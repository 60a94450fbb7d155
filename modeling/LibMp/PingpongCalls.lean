import LibMp.Pingpong

/- What the calls of `sync_exchange` do to their rank, and when they come back.

   The three posting calls always come back, since there are ids and there is
   room in the table. The wait on the CPU comes back exactly when its word is
   there, and the flush when the requests complete. -/
namespace LibMp

/-- What a call does to the ready tables. -/
def PingOp.readies : PingOp → ReadyTables → ReadyTables
  | .sendReady peer, t => t.nextSent peer
  | .waitReady peer, t => t.nextExpected peer
  | _, t => t

namespace Pingpong
variable {pp : Pingpong} {s : PingState} {c c' : Comm} {r p i ids : Nat} {op x : PingOp} {rest : List PingOp}
  {tape : List Ans}

theorem body_nodup (pp : Pingpong) (r : Nat) : (pp.body r).Nodup := syncExchange_nodup pp.job.size r

theorem mem_body : op ∈ pp.body r ↔ op ∈ syncPosts pp.job.size r ∨ op = .flush := mem_syncExchange

theorem peer_of_mem (h : op ∈ pp.body r) (hop : op = .irecv p ∨ op = .sendReady p ∨ op = .waitReady p ∨ op = .isend p) :
    p < pp.job.size ∧ p ≠ r := by
  rcases mem_body.mp h with h | rfl
  · obtain ⟨q, hq, h⟩ := mem_syncPosts.mp h
    rcases hop with rfl | rfl | rfl | rfl <;> · simp at h; rw [h]; exact hq
  · simp at hop

theorem body_length_le (pp : Pingpong) (r : Nat) : (pp.body r).length ≤ 41 := by
  have h₁ := syncExchange_length_le pp.job.size r
  have h₂ : pp.job.size ≤ 10 := pp.ranks
  unfold body
  omega

theorem done_eq (s : PingState) (r : Nat) (x : PingOp) : pp.done s r x = (s.pos r).countIn (pp.body r) x := rfl

/-- How often the calls were made after one more. -/
theorem done_afterCall (hin : (s.pos r).In (pp.body r)) (htodo : (s.pos r).todo = op :: rest) (c : Comm) (q : Nat)
    (x : PingOp) : pp.done (pp.afterCall s r op c) q x = pp.done s q x + if q = r ∧ x = op then 1 else 0 := by
  rw [done_eq, done_eq]
  by_cases hq : q = r
  · subst hq
    have hpos : (pp.afterCall s q op c).pos q = (s.pos q).next (pp.body q) := Function.update_self ..
    rw [hpos, hin.countIn_next (body_nodup pp q) htodo]
    simp only [true_and]
  · have hpos : (pp.afterCall s r op c).pos q = s.pos q := Function.update_of_ne hq ..
    rw [hpos, if_neg (fun hh : q = r ∧ x = op => hq hh.1)]
    rfl

/-! ## The clients -/

theorem exists_client (h : p < pp.job.size ∧ p ≠ r) : ∃ i, (pp.job.comm r).mp.clientIndex p = some i := by
  obtain ⟨k, hk⟩ := List.mem_iff_getElem?.mp (mem_commPeers.mpr h)
  exact ⟨0 + k, clientIndexFrom_of_get (commPeers_nodup pp.job.size r) hk⟩

theorem peer_of_client (h : (pp.job.comm r).mp.clientIndex p = some i) : p < pp.job.size ∧ p ≠ r := by
  obtain ⟨k, -, hk⟩ := clientIndexFrom_eq h
  exact mem_commPeers.mp (List.mem_of_getElem? hk)

/-- The window of each peer has a slot for every rank. -/
theorem slot_inside (hr : r < pp.job.size) (i : Nat) :
    (pp.job.comm r).commRank * 4 < (pp.job.comm r).readyTableWin.rsize i := by
  have hranks : pp.job.size ≤ 10 := pp.ranks
  have hsize : tableSize pp.job.size = 4096 := by
    unfold tableSize
    omega
  have hwin : (pp.job.comm r).readyTableWin.rsize i = throughInt (tableSize pp.job.size) := rfl
  rw [hwin, hsize]
  show r * 4 < 4096
  omega

/-- The put of a rank for another. -/
theorem put_some (pp : Pingpong) (t : ReadyTables) (hr : r < pp.job.size) (hp : p < pp.job.size ∧ p ≠ r) (no : Nat) :
    pp.job.put t r p no = some ⟨r, p, pp.job.tableAt p + 4 * r, t.remoteReadyValues p, no⟩ := by
  obtain ⟨i, hi⟩ := exists_client hp
  have hsome : ∃ q, pp.job.put t r p no = some q := by
    unfold CommJob.put readyPut
    dsimp only
    rw [hi]
    dsimp only
    rw [if_pos (slot_inside hr i)]
    exact ⟨_, rfl⟩
  obtain ⟨q, hq⟩ := hsome
  rw [hq, (put_eq hr hq).2.2]

/-! ## The posting calls -/

/-- The flow of a posting call. -/
def flowOf : PingOp → Flow
  | .irecv _ => .rx
  | _ => .tx

/-- A posting call comes back. -/
theorem posts (hr : r < pp.job.size) (hop : op = .irecv p ∨ op = .sendReady p ∨ op = .isend p)
    (hi : (pp.job.comm r).mp.clientIndex p = some i) (hid : ∀ d, (c.sys.w.clients d).lastReqId < uintMax)
    (hroom : c.reqs.length < maxReqs) (ht : Succeeds c.sys.tape) :
    ∃ y c' fl, (pp.call r op).run (pp.job.comm r) c = (.ok y, c') ∧
      NewRequest (pp.job.comm r).mp c.sys.w c'.sys.w c.sys.w.nextFree i (flowOf op) fl ∧
      (nowait fl = true ↔ op = .sendReady p) ∧
      (∀ d, (c'.sys.w.clients d).lastReqId ≤ (c.sys.w.clients d).lastReqId + 1) ∧
      c'.ready = op.readies c.ready ∧ c'.reqs.length ≤ c.reqs.length + 1 := by
  have he : (pp.job.comm r).mp.useEventSync = false := pp.noEventSync r
  have hrank : p < (pp.job.comm r).commSize := (peer_of_client hi).1
  have hsize : pp.maxSize * MpiType.char.sizeof % 2 ^ 64 ≠ 0 := by
    rw [MpiType.sizeof, Nat.mul_one]
    exact pp.notEmpty
  have hrecv : ∀ n reg,
    PostsOne (pp.job.comm r).mp (mpIrecv (pp.job.comm r).mp (pp.recvBuf r p) n p reg) c.sys.w i .rx 0 :=
    fun n reg => mpIrecv_posts hi (hid i) he (pp.recvBuf r p)
  have hsend : ∀ n reg,
    PostsOne (pp.job.comm r).mp (mpIsend (pp.job.comm r).mp (pp.sendBuf r p) n p reg) c.sys.w i .tx 0 :=
    fun n reg => mpIsend_posts hi (hid i) he (pp.sendBuf r p)
  rcases hop with rfl | rfl | rfl
  · obtain ⟨y, c', hrun, hnew, hids, hready, hlen⟩ := commPost_succeeds hsize hrank
      hrecv hroom (pp.rreg r + 8 * p) ht
    exact ⟨y, c', 0, hrun, hnew, by simp [nowait_zero], hids, hready, hlen.le⟩
  · obtain ⟨y, c', hrun, hnew, hids, hready, hreqs⟩ := commSendReady_succeeds hi (pp.noUd r) (hid i) hrank
      (slot_inside hr i) ht
    refine ⟨y, c', _, hrun, hnew, ⟨fun _ => rfl, fun _ => mpPutNowait_not_waitable⟩, hids, hready, ?_⟩
    rw [hreqs]
    omega
  · obtain ⟨y, c', hrun, hnew, hids, hready, hlen⟩ := commPost_succeeds hsize hrank
      hsend hroom (pp.sreg r + 8 * p) ht
    exact ⟨y, c', 0, hrun, hnew, by simp [nowait_zero], hids, hready, hlen.le⟩

/-! ## Any call that came back -/

theorem call_handles (r : Nat) (op : PingOp) : (pp.call r op).handles = none := by cases op <;> rfl

/-- What a call that came back has left. -/
structure Returned (op : PingOp) (c c' : Comm) : Prop where
  ids : ∀ d, (c'.sys.w.clients d).lastReqId ≤ (c.sys.w.clients d).lastReqId + 1
  ready : c'.ready = op.readies c.ready
  room : c'.reqs.length ≤ c.reqs.length + 1
  flushed : op = .flush → c'.reqs = []
  waited : ∀ p, op = .waitReady p → c.ready.notReady p = false

theorem returned (hr : r < pp.job.size) (hop : op ∈ pp.body r) (hid : ∀ d, (c.sys.w.clients d).lastReqId < uintMax)
    (hroom : c.reqs.length < maxReqs) (ht : Succeeds tape) {y : Int × Option Ptr}
    (hrun : (pp.call r op).run (pp.job.comm r) (c.given tape []) = (.ok y, c')) :
    Returned op c c' := by
  have hpost : ∀ p, op = .irecv p ∨ op = .sendReady p ∨ op = .isend p → Returned op c c' := by
    intro p hp
    obtain ⟨i, hi⟩ := exists_client (peer_of_mem hop (p := p) (by tauto))
    obtain ⟨y', c'', fl, hrun', -, -, hids, hready, hlen⟩ :=
      posts (c := c.given tape []) hr hp hi hid hroom ht
    rw [hrun] at hrun'
    cases hrun'
    refine ⟨hids, hready, hlen, fun he => ?_, fun q he => ?_⟩ <;> simp [he] at hp
  cases op with
  | irecv p => exact hpost p (.inl rfl)
  | sendReady p => exact hpost p (.inr (.inl rfl))
  | isend p => exact hpost p (.inr (.inr rfl))
  | waitReady p =>
    obtain ⟨ret, c₁, h₁, h₂⟩ := Prog.bind_eq_ok hrun
    cases h₂
    obtain ⟨hm, hreqs⟩ := commWaitReady_did h₁
    obtain ⟨-, hready, hnext⟩ := commWaitReady_silent (c := c.given tape []) rfl h₁
    refine ⟨fun d => ?_, hnext, ?_, nofun, fun q hq => ?_⟩
    · have hsame := progress_lastReqId hm d
      exact hsame.le.trans (Nat.le_succ _)
    · rw [hreqs]
      exact Nat.le_succ _
    · cases hq
      exact hready
  | flush =>
    obtain ⟨ret, c₁, h₁, h₂⟩ := Prog.bind_eq_ok hrun
    cases h₂
    obtain ⟨hwait, hreqs⟩ := commFlush_did h₁
    have hready := commFlush_ready h₁
    refine ⟨fun d => ?_, hready, ?_, fun _ => hreqs, nofun⟩
    · have he : (pp.job.comm r).mp.useEventSync = false := pp.noEventSync r
      have hsame := (mpWaitAll_leaves he hwait).1 d
      exact hsame.le.trans (Nat.le_succ _)
    · rw [hreqs]
      exact Nat.zero_le _

/-- What a poll that came back has left: nothing arrives inside it. -/
theorem waited {c c' : Comm} (h : Waiting (pp.job.comm r) p (c.given tape []) c') :
    ProgressMoves (pp.job.comm r).mp ⟨c.sys.w, none⟩ ⟨c'.sys.w, none⟩ ∧ c'.ready = c.ready ∧ c'.reqs = c.reqs ∧
      c.ready.notReady p = true := by
  rcases h with hcons | ⟨hnot, hp⟩
  · cases hcons
  · obtain ⟨hm, hreqs⟩ := commProgress_did hp
    exact ⟨hm, (commProgress_ready hp).1, hreqs, hnot⟩

/-- The wait on the CPU comes back when its word is there. -/
theorem waitReady_comes_back (pp : Pingpong) (r : Nat) (hp : p < pp.job.size) (hready : c.ready.notReady p = false) :
    ∃ y c', (pp.call r (.waitReady p)).run (pp.job.comm r) (c.given [] []) = (.ok y, c') ∧ c'.sys.w = c.sys.w := by
  have hrank : p < (pp.job.comm r).commSize := hp
  have hwait := commWaitReady_now (c := c.given [] []) hrank rfl hready
  exact ⟨(0, none), _, Prog.bind_ok hwait _, rfl⟩

end Pingpong

end LibMp
