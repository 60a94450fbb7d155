import Mathlib.Data.List.Perm.Basic
import LibMp.ReadyNet

/- Credits of the ready protocol: the k-th wait of a rank on another is over
   only after k puts of the other, and each wait uses one of them.

   The waits of `r` on `s` that are over and those that are not have the numbers
   1, 2, 3, ... of the calls that made them, each once (`NumberedNet`). Below
   2^31 the words of the tables are the counts themselves, so a wait that is
   released has found a put with its number or a later one. -/
namespace LibMp
variable {job : CommJob} {kernel : Nat → Nat → Bool} {n n' : Net}

/-! ## The numbers of the waits -/

/-- The waits of `r` on `s` that are over. -/
def releasedNos (log : List ReadyEv) (r s : Nat) : List Nat :=
  log.filterMap fun
    | .released a b k => if a = r ∧ b = s then some k else none
    | _ => none

/-- Those that are not. -/
def pendingNos (ws : List PendingWait) (r s : Nat) : List Nat :=
  ws.filterMap fun w => if w.rank = r ∧ w.slot = s then some w.no else none

/-- Distinct numbers from 1 to `c`. -/
structure Numbered (l : List Nat) (c : Nat) : Prop where
  nodup : l.Nodup
  bounds : ∀ k ∈ l, 1 ≤ k ∧ k ≤ c

namespace Numbered
variable {l l' : List Nat} {c : Nat}

theorem perm (h : Numbered l c) (hp : l.Perm l') : Numbered l' c :=
  ⟨hp.nodup_iff.mp h.nodup, fun k hk => h.bounds k (hp.mem_iff.mpr hk)⟩

/-- The next number is a new one. -/
theorem next (h : Numbered l c) : Numbered ((c + 1) :: l) (c + 1) := by
  refine ⟨List.nodup_cons.mpr ⟨fun hm => ?_, h.nodup⟩, fun k hk => ?_⟩
  · have := (h.bounds _ hm).2
    omega
  · rcases List.mem_cons.mp hk with rfl | hk
    · omega
    · have := h.bounds k hk
      omega

end Numbered

/-- Every value that was taken belongs to one wait, which is over or pending. -/
def NumberedNet (n : Net) : Prop :=
  ∀ r s, Numbered (releasedNos n.log r s ++ pendingNos n.waits r s) (tookCount n.log r s)

theorem releasedNos_append (l : List ReadyEv) (e : ReadyEv) (r s : Nat) :
    releasedNos (l ++ [e]) r s = releasedNos l r s ++
      match e with
      | .released a b k => if a = r ∧ b = s then [k] else []
      | _ => [] := by
  unfold releasedNos
  rw [List.filterMap_append]
  cases e with
  | released a b k =>
    by_cases h : a = r ∧ b = s
    · simp [h]
    · simp [h]
  | _ => simp

theorem pendingNos_append (ws : List PendingWait) (w : PendingWait) (r s : Nat) :
    pendingNos (ws ++ [w]) r s = pendingNos ws r s ++ if w.rank = r ∧ w.slot = s then [w.no] else [] := by
  unfold pendingNos
  rw [List.filterMap_append]
  by_cases h : w.rank = r ∧ w.slot = s
  · simp [h]
  · simp [h]

theorem numbered_init : NumberedNet Net.init := fun _ _ => ⟨List.nodup_nil, fun _ hk => by cases hk⟩

theorem NumberedNet.takeNow (h : NumberedNet n) (r s : Nat) : NumberedNet (n.takeNow r s) := by
  intro a b
  have hlog : (n.takeNow r s).log = n.log ++ [.took r s] ++ [.released r s (n.nextNo r s)] := rfl
  have hwaits : (n.takeNow r s).waits = n.waits := rfl
  rw [hlog, hwaits, releasedNos_append, releasedNos_append, List.append_nil, tookCount_append, tookCount_append,
    tookCount_took, tookCount_released]
  by_cases hab : a = r ∧ b = s
  · obtain ⟨rfl, rfl⟩ := hab
    rw [if_pos ⟨rfl, rfl⟩]
    simp only [and_self, if_true, List.append_assoc, List.singleton_append]
    exact (h a b).next.perm List.perm_middle.symm
  · rw [if_neg hab]
    dsimp only
    rw [if_neg (fun hh => hab ⟨hh.1.symm, hh.2.symm⟩), List.append_nil]
    exact h a b

theorem NumberedNet.takeLater (h : NumberedNet n) (r s : Nat) (waiter : Waiter) :
    NumberedNet (n.takeLater r s waiter) := by
  intro a b
  have hlog : (n.takeLater r s waiter).log = n.log ++ [.took r s] := rfl
  have hwaits : (n.takeLater r s waiter).waits = n.waits ++ [⟨r, s,
    (n.tables r).readyValues s, waiter, n.nextNo r s⟩] := rfl
  rw [hlog, hwaits, releasedNos_append, List.append_nil, pendingNos_append, tookCount_append, tookCount_took]
  by_cases hab : a = r ∧ b = s
  · obtain ⟨rfl, rfl⟩ := hab
    rw [if_pos ⟨rfl, rfl⟩, if_pos ⟨rfl, rfl⟩, ← List.append_assoc]
    exact (h a b).next.perm (List.perm_append_singleton ..).symm
  · rw [if_neg hab, if_neg (fun hh => hab ⟨hh.1.symm, hh.2.symm⟩), List.append_nil]
    exact h a b

theorem NumberedNet.release (h : NumberedNet n) {i : Nat} {w : PendingWait} (hw : n.waits[i]? = some w) :
    NumberedNet (n.release i w) := by
  intro a b
  obtain ⟨hlt, hget⟩ := List.getElem?_eq_some_iff.mp hw
  have hperm : (pendingNos n.waits a b).Perm
      ((if w.rank = a ∧ w.slot = b then [w.no] else []) ++ pendingNos (n.waits.eraseIdx i) a b) := by
    have hws := (List.getElem_cons_eraseIdx_perm hlt).symm
    rw [hget] at hws
    refine (hws.filterMap _).trans ?_
    by_cases hab : w.rank = a ∧ w.slot = b
    · rw [if_pos hab]
      simp [pendingNos, hab]
    · rw [if_neg hab]
      simp [pendingNos, hab]
  have hlog : (n.release i w).log = n.log ++ [.released w.rank w.slot w.no] := rfl
  rw [hlog, releasedNos_append, tookCount_append, tookCount_released, List.append_assoc]
  exact (h a b).perm (List.Perm.append_left _ hperm)

theorem NumberedNet.step (h : NumberedNet n) {ev : NetEvent} (hs : n.step job kernel ev = some n') :
    NumberedNet n' := by
  cases happens_of_step hs with
  | @send _ s r p =>
    intro a b
    have hlog : (n.issue s r p).log = n.log ++ [.sent s r] := rfl
    rw [hlog, releasedNos_append, List.append_nil, tookCount_append, tookCount_sent]
    exact h a b
  | @deliver i p =>
    intro a b
    have hlog : (n.deliver job i p).log = n.log ++ [.delivered p.src p.dst p.no] := rfl
    rw [hlog, releasedNos_append, List.append_nil, tookCount_append, tookCount_delivered]
    exact h a b
  | now => exact h.takeNow _ _
  | notYet => exact h
  | later => exact h.takeLater _ _ _
  | release hw => exact h.release hw

/-! ## Releases -/

/-- What is assumed of the comparison a kernel makes: on values below 2^31 it
passes only at or above the value. -/
def KernelWaits (kernel : Nat → Nat → Bool) : Prop :=
  ∀ word value, word < 2 ^ 31 → value < 2 ^ 31 → kernel word value = true → value ≤ word

/-- Every wait in the log was over only after its number of sends, as long as
the counts stay below 2^31. -/
def ReleasedOk (log : List ReadyEv) : Prop :=
  ∀ i r s k, log[i]? = some (.released r s k) → sentCount log s r < 2 ^ 31 → tookCount log r s < 2 ^ 31 →
    1 ≤ k ∧ k ≤ sentCount (log.take i) s r ∧ k ≤ tookCount (log.take i) r s

theorem ReleasedOk.concat {log : List ReadyEv} (h : ReleasedOk log) (e : ReadyEv)
    (hnew : ∀ r s k, e = .released r s k → sentCount log s r < 2 ^ 31 → tookCount log r s < 2 ^ 31 →
      1 ≤ k ∧ k ≤ sentCount log s r ∧ k ≤ tookCount log r s) : ReleasedOk (log ++ [e]) := by
  intro i r s k hi hs ht
  rw [sentCount_append] at hs
  rw [tookCount_append] at ht
  by_cases hlt : i < log.length
  · rw [List.getElem?_append_left hlt] at hi
    rw [List.take_append_of_le_length (Nat.le_of_lt hlt)]
    exact h i r s k hi (by omega) (by omega)
  · have hi' : i = log.length := by
      have := (List.getElem?_eq_some_iff.mp hi).1
      simp only [List.length_append, List.length_singleton] at this
      omega
    rw [hi', List.getElem?_concat_length] at hi
    rw [hi', List.take_left]
    exact hnew r s k (Option.some.inj hi) (by omega) (by omega)

/-- The comparison of a stream is the one of `WaitCond` exactly if the two words
are no more than 2^31 apart. -/
theorem streamGeq_eq_holds {word value : Nat} (hword : word < 2 ^ 32) (hvalue : value < 2 ^ 32) :
    streamGeq word value = WaitCond.geq.holds word value ↔ word < value + 2 ^ 31 ∧ value ≤ word + 2 ^ 31 :=
  serialGe_eq_decide_iff hword hvalue

/-- A stream passes only at or above the value, as a kernel does. -/
theorem passes_le (hk : KernelWaits kernel) {word value : Nat} (hword : word < 2 ^ 31) (hvalue : value < 2 ^ 31)
    {waiter : Waiter} (h : waiter.passes kernel word value = true) : value ≤ word := by
  cases waiter with
  | kernel => exact hk word value hword hvalue h
  | stream st =>
    change streamGeq word value = true at h
    rw [(streamGeq_eq_holds (by omega) (by omega)).mpr (by omega)] at h
    exact of_decide_eq_true h

theorem ReleasedOk.step (hk : KernelWaits kernel) (hinv : ReadyInv job n) (hnum : NumberedNet n) (h : ReleasedOk n.log)
    {ev : NetEvent} (hs : n.step job kernel ev = some n') : ReleasedOk n'.log := by
  cases happens_of_step hs with
  | send => exact h.concat _ fun _ _ _ he => by cases he
  | deliver => exact h.concat _ fun _ _ _ he => by cases he
  | @now _ r s _ hready =>
    refine (h.concat (.took r s) fun _ _ _ he => by cases he).concat _ ?_
    intro a b k he hsent htook
    cases he
    have hcount : tookCount (n.log ++ [.took r s]) r s = tookCount n.log r s + 1 := by
      rw [tookCount_append, tookCount_took, if_pos ⟨rfl, rfl⟩]
    have hsc : sentCount (n.log ++ [.took r s]) s r = sentCount n.log s r := by simp
    rw [hcount] at htook
    rw [hsc] at hsent
    rw [hcount, hsc]
    -- the words are the counts themselves here
    obtain ⟨hle, htable⟩ := hinv.table r s
    have hval := hinv.took r s
    have hcmp : ¬ (n.tables r).readyTable s < (n.tables r).readyValues s := of_decide_eq_false hready
    unfold Net.nextNo
    omega
  | notYet => exact h
  | later => exact h.concat _ fun _ _ _ he => by cases he
  | @release i w hw hpass =>
    refine h.concat _ fun a b k he hsent htook => ?_
    cases he
    have hmem : w.no ∈ releasedNos n.log w.rank w.slot ++ pendingNos n.waits w.rank w.slot :=
      List.mem_append_right _ (List.mem_filterMap.mpr ⟨w, List.mem_of_getElem? hw, by simp⟩)
    obtain ⟨hpos, hno⟩ := (hnum w.rank w.slot).bounds w.no hmem
    obtain ⟨hle, htable⟩ := hinv.table w.rank w.slot
    have hval := hinv.waits w (List.mem_of_getElem? hw)
    rw [Nat.mod_eq_of_lt (by omega)] at htable hval
    have hcmp := passes_le hk (by omega) (by omega) hpass
    omega

theorem releasedOk_moves (hk : KernelWaits kernel) (h : NetMoves job kernel Net.init n) :
    ReadyInv job n ∧ NumberedNet n ∧ ReleasedOk n.log := by
  refine Moves.inv (I := fun n => ReadyInv job n ∧ NumberedNet n ∧ ReleasedOk n.log) ?_ h
    ⟨readyInv_init, numbered_init, fun i r s k hi => by simp [Net.init] at hi⟩
  rintro a b ⟨hinv, hnum, hrel⟩ ⟨ev, hs⟩
  exact ⟨hinv.step hs, hnum.step hs, hrel.step hk hinv hnum hs⟩

/-- The event is a wait or a test of `r` on `s` that succeeds: a wait always
does when it happens, a test if the table is ready. -/
def NetEvent.succeeds (n : Net) (r s : Nat) : NetEvent → Bool
  | .waitReady a b => a = r ∧ b = s
  | .testReady a b => (a = r ∧ b = s) ∧ (n.tables a).notReady b = false
  | .waitReadyOnStream a b _ => a = r ∧ b = s
  | .prepareWaitReady a b => a = r ∧ b = s
  | _ => false

theorem tookCount_step {ev : NetEvent} (hs : n.step job kernel ev = some n') (r s : Nat) :
    tookCount n'.log r s = tookCount n.log r s + if ev.succeeds n r s then 1 else 0 := by
  have htake : ∀ a b, tookCount (n.take a b).log r s = tookCount n.log r s + if a = r ∧ b = s then 1 else 0 := by
    intro a b
    show tookCount (n.log ++ [.took a b]) r s = _
    rw [tookCount_append, tookCount_took]
    simp only [eq_comm]
  cases happens_of_step hs with
  | @send _ a b p hev =>
    show tookCount (n.log ++ [.sent a b]) r s = _
    rcases hev with rfl | ⟨st, rfl⟩ <;> simp [NetEvent.succeeds]
  | @deliver i p =>
    show tookCount (n.log ++ [.delivered p.src p.dst p.no]) r s = _
    simp [NetEvent.succeeds]
  | @now _ a b hev hready =>
    show tookCount ((n.take a b).log ++ [.released a b (n.nextNo a b)]) r s = _
    rw [tookCount_append, tookCount_released, Nat.add_zero, htake]
    rcases hev with rfl | rfl <;> simp [NetEvent.succeeds, hready]
  | notYet hready => simp [NetEvent.succeeds, hready]
  | @later _ a b waiter hev =>
    show tookCount (n.take a b).log r s = _
    rw [htake]
    rcases hev with ⟨st, rfl⟩ | rfl <;> simp [NetEvent.succeeds]
  | @release i w =>
    show tookCount (n.log ++ [.released w.rank w.slot w.no]) r s = _
    simp [NetEvent.succeeds]

/-- The table of a rank changes when a put arrives, and then only in the slot of
its sender. -/
theorem readyTable_step (h : ReadyInv job n) {ev : NetEvent} (hs : n.step job kernel ev = some n') {r s : Nat}
    (hne : (n'.tables r).readyTable s ≠ (n.tables r).readyTable s) :
    ∃ i p, ev = .deliver i ∧ n.flying[i]? = some p ∧ p.src = s ∧ p.dst = r := by
  have htake : ∀ a b, ((n.take a b).tables r).readyTable s = (n.tables r).readyTable s := by
    intro a b
    rw [take_tables]
    split <;> rfl
  cases happens_of_step hs with
  | @send _ a b p =>
    rw [issue_tables] at hne
    split at hne <;> exact absurd rfl hne
  | @deliver i p hp =>
    rw [h.store hp r s] at hne
    by_cases hps : p.src = s ∧ p.dst = r
    · exact ⟨i, p, rfl, hp, hps⟩
    · rw [if_neg hps] at hne
      exact absurd rfl hne
  | now => exact absurd (htake _ _) hne
  | notYet => exact absurd rfl hne
  | later => exact absurd (htake _ _) hne
  | release => exact absurd rfl hne

/-- The ready protocol, over every interleaving in which `s` has told `r` and
`r` has waited for `s` less than 2^31 times. The wait with the number `k` (in
the order of the calls, of all kinds together) is over only after `s` has made
`k` calls; the numbers of the waits that are over are distinct; a wait or test
that succeeds takes one value, and nothing else does; and the slot of `s` in
the table of `r` is changed by no put but those of `s` for `r`. -/
theorem ready_credits (hk : KernelWaits kernel) (h : NetMoves job kernel Net.init n) {s r : Nat}
    (hsent : sentCount n.log s r < 2 ^ 31) (htook : tookCount n.log r s < 2 ^ 31) :
    (∀ i k, n.log[i]? = some (.released r s k) →
      1 ≤ k ∧ k ≤ sentCount (n.log.take i) s r ∧ k ≤ tookCount (n.log.take i) r s) ∧
    (releasedNos n.log r s).Nodup ∧
    (n.tables r).readyValues s = 1 + tookCount n.log r s ∧
    ∀ ev n', n.step job kernel ev = some n' →
      (tookCount n'.log r s = tookCount n.log r s + if ev.succeeds n r s then 1 else 0) ∧
      ((n'.tables r).readyTable s ≠ (n.tables r).readyTable s →
        ∃ i p, ev = .deliver i ∧ n.flying[i]? = some p ∧ p.src = s ∧ p.dst = r) := by
  obtain ⟨hinv, hnum, hrel⟩ := releasedOk_moves hk h
  refine ⟨fun i k hi => hrel i r s k hi hsent htook, ?_, ?_, fun ev n' hs => ⟨tookCount_step hs r s, ?_⟩⟩
  · exact ((hnum r s).nodup).sublist (List.sublist_append_left ..)
  · rw [hinv.took r s, Nat.mod_eq_of_lt (by omega)]
  · exact readyTable_step hinv hs

/-- A run of events. -/
def Net.run (job : CommJob) (kernel : Nat → Nat → Bool) : List NetEvent → Net → Option Net
  | [], n => some n
  | ev :: evs, n => (n.step job kernel ev).bind (Net.run job kernel evs)

theorem run_moves (evs : List NetEvent) (h : Net.run job kernel evs n = some n') : NetMoves job kernel n n' := by
  induction evs generalizing n with
  | nil =>
    cases h
    exact .refl
  | cons ev evs ih =>
    obtain ⟨n₁, h₁, h₂⟩ := Option.bind_eq_some_iff.mp h
    exact .head ⟨ev, h₁⟩ (ih h₂)

/-- Two ranks, whose tables stand at 4096. -/
def twoRanks : CommJob where
  size := 2
  size_lt := by decide
  cfg _ := {}
  tableAt _ := 4096
  sentAt _ := 0
  rkey _ := 0
  reg _ := ⟨0⟩
  fits _ := by decide

/-- Rank 0 tells rank 1 twice; the second put overtakes the first, and rank 1
waits on the CPU and in a kernel. -/
def overtaken : List NetEvent :=
  [.sendReady 0 1, .sendReadyOnStream 0 1 3, .deliver 1, .waitReady 1 0, .prepareWaitReady 1 0, .release 0, .deliver 0]

theorem kernelWaits_streamGeq : KernelWaits streamGeq := by
  intro word value hword hvalue h
  rw [(streamGeq_eq_holds (by omega) (by omega)).mpr (by omega)] at h
  exact of_decide_eq_true h

/-- The log of that run. -/
def overtakenLog : List ReadyEv :=
  [.sent 0 1, .sent 0 1, .delivered 0 1 2, .took 1 0, .released 1 0 1, .took 1 0, .released 1 0 2, .delivered 0 1 1]

theorem ready_credits_of_overtaken :
    ∃ n, Net.run twoRanks streamGeq overtaken Net.init = some n ∧ n.log = overtakenLog ∧
      2 ≤ sentCount (overtakenLog.take 6) 0 1 ∧ (n.tables 1).readyValues 0 = 3 := by
  have hmap : (Net.run twoRanks streamGeq overtaken Net.init).map Net.log = some overtakenLog := by decide
  obtain ⟨n, hrun, hlog⟩ := Option.map_eq_some_iff.mp hmap
  have hsent : sentCount n.log 0 1 = 2 := by
    rw [hlog]
    decide
  have htook : tookCount n.log 1 0 = 2 := by
    rw [hlog]
    decide
  obtain ⟨hrel, -, hval, -⟩ := ready_credits kernelWaits_streamGeq (run_moves overtaken hrun) (s := 0) (r := 1)
    (by omega) (by omega)
  have hsix := (hrel 6 2 (by rw [hlog]; decide)).2.1
  rw [hlog] at hsix
  exact ⟨n, hrun, hlog, hsix, by omega⟩

end LibMp
