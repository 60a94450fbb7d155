import LibMp.Core

/- Every step of the request machine keeps the invariant `Core`. -/
namespace LibMp
variable {cfg : Config} {w : World} {cur : Option Cur} {fl : List Ptr} {pl : Nat → List Ptr}

/-! ## Appending to a posted list -/

section Append
variable {c : Nat} {f : Flow} {p : Ptr}

/-- Of a client, appending changes the head and the tail of the list at most. -/
theorem World.append_heads (d : Nat) :
    ∃ h t, (w.append c f p).clients d = { w.clients d with postedStreamReq := h, lastPostedStreamReq := t } := by
  unfold World.append
  have hset : ∀ (u : World) (g : Client → Client), u.clients = w.clients →
      (∀ cl, ∃ h t, g cl = { cl with postedStreamReq := h, lastPostedStreamReq := t }) →
      ∃ h t, (u.setClient c g).clients d = { w.clients d with postedStreamReq := h, lastPostedStreamReq := t } := by
    intro u g hu hg
    rw [← hu]
    exact u.setClient_rel (R := fun a b => ∃ h t, b = { a with postedStreamReq := h, lastPostedStreamReq := t })
      (fun _ => ⟨_, _, rfl⟩) (hg _) d
  split
  · exact hset _ _ rfl fun _ => ⟨_, _, rfl⟩
  · split
    · exact ⟨_, _, rfl⟩
    · exact hset _ _ rfl fun _ => ⟨_, _, rfl⟩

/-- Of a request it changes the links at most. -/
theorem World.append_links (q : Ptr) :
    ∃ n v, (w.append c f p).mem q = { w.mem q with next := n, prev := v } := by
  unfold World.append
  split
  · exact ⟨_, _, rfl⟩
  · split
    · exact ⟨_, _, rfl⟩
    · rename_i x hx
      simp only [World.setClient_mem, World.setReq_mem]
      split
      · rename_i hq
        rw [← hq]
        split
        · rename_i hqx; rw [← hqx]; exact ⟨_, _, rfl⟩
        · exact ⟨_, _, rfl⟩
      · split
        · rename_i hq; rw [← hq]; exact ⟨_, _, rfl⟩
        · exact ⟨_, _, rfl⟩

theorem World.append_rest : (w.append c f p).frontier = w.frontier ∧
    (w.append c f p).mpRequestFreeList = w.mpRequestFreeList ∧ (w.append c f p).cq = w.cq := by
  unfold World.append
  split
  · exact ⟨rfl, rfl, rfl⟩
  · split <;> exact ⟨rfl, rfl, rfl⟩

/-- The other lists keep their heads and tails. -/
theorem World.append_heads_apart {d : Nat} {g : Flow} (hdg : d ≠ c ∨ g ≠ f) :
    ((w.append c f p).clients d).postedStreamReq g = (w.clients d).postedStreamReq g ∧
      ((w.append c f p).clients d).lastPostedStreamReq g = (w.clients d).lastPostedStreamReq g := by
  unfold World.append
  split
  · rw [World.setClient_clients]
    split
    · rename_i hd
      have hg : g ≠ f := hdg.resolve_left (not_not.mpr hd)
      simp [hd, hg]
    · exact ⟨rfl, rfl⟩
  · split
    · exact ⟨rfl, rfl⟩
    · simp only [World.setClient_clients, World.setReq_clients]
      split
      · rename_i hd
        have hg : g ≠ f := hdg.resolve_left (not_not.mpr hd)
        simp [hd, hg]
      · exact ⟨rfl, rfl⟩

/-- The requests out of the list stay as they are. -/
theorem World.append_apart {l : List Ptr} {q : Ptr} (hl : l.getLast? = (w.clients c).lastPostedStreamReq f)
    (hq : q ∉ l) (hqp : q ≠ p) : (w.append c f p).mem q = w.mem q := by
  unfold World.append
  split
  · rfl
  · split
    · rfl
    · rename_i r hr
      have hqr : q ≠ r := by
        rintro rfl
        exact hq (List.mem_of_getLast? (hl.trans hr))
      simp [hqp, hqr]

/-- `p` is in no list: it becomes the last request of this one. -/
theorem World.append_dll {l : List Ptr}
    (hd : Dll (fun q => (w.mem q).next) (fun q => (w.mem q).prev) ((w.clients c).postedStreamReq f)
      ((w.clients c).lastPostedStreamReq f) l) (hnd : l.Nodup) (hp : p ∉ l)
    (hnext : (w.mem p).next = none) (hprev : (w.mem p).prev = none) :
    Dll (fun q => ((w.append c f p).mem q).next) (fun q => ((w.append c f p).mem q).prev)
      (((w.append c f p).clients c).postedStreamReq f) (((w.append c f p).clients c).lastPostedStreamReq f)
      (l ++ [p]) := by
  unfold World.append
  cases hh : (w.clients c).postedStreamReq f with
  | none =>
    -- the list was empty: `p` becomes its head and its tail
    rw [hh] at hd
    rw [hd.eq_nil.1]
    simp only [World.setClient_clients, World.setClient_mem, if_pos, Function.update_self]
    exact Dll.singleton hnext hprev
  | some r =>
    rw [hh] at hd
    cases hl : (w.clients c).lastPostedStreamReq f with
    | none =>
      rw [hl] at hd
      exact absurd (hd.head_none_iff.mpr rfl) (by simp)
    | some q =>
      -- the old tail `q` links to `p`
      rw [hl] at hd
      have hne : l ≠ [] := by
        rintro rfl
        exact absurd (show some r = none from hd.fwd) (by simp)
      have hq : q ∈ l := List.mem_of_getLast? hd.tail_eq
      have hmp : ∀ x ∈ l, x ≠ p := by
        rintro x hx rfl
        exact hp hx
      have hqp : p ≠ q := (hmp q hq).symm
      simp only [World.setClient_clients, World.setReq_clients, if_pos, World.setClient_mem, Function.update_self, hh]
      refine hd.snoc hnd hp hne ?_ ?_ ?_ ?_ ?_
      · simp [hqp, hnext]
      · simp
      · intro x hx hxq
        have hxq' : x ≠ q := by
          rintro rfl
          exact hxq rfl
        simp [hmp x hx, hxq']
      · intro x hx
        cases hx
        simp [hqp.symm]
      · intro x hx
        simp only [World.setReq_mem, if_neg (hmp x hx)]
        split
        · rename_i hxq
          simp [hxq]
        · rfl

end Append

namespace Core

/-- The posted list has no repetition: its ids increase. -/
theorem posted_nodup (h : Core cfg ⟨w, cur⟩ fl pl) (c : Nat) : (pl c).Nodup :=
  (h.posted_sorted c).imp (fun hlt heq => by rw [heq] at hlt; exact Nat.lt_irrefl _ hlt)

/-- The running call appends the prepared request it holds to the posted list. -/
theorem track {c : Nat} {p : Ptr} {s : Stream} (h : Core cfg ⟨w, some ⟨p, .prepared, true⟩⟩ fl pl)
    (hat : w.At cfg p c .tx) (hnow : nowait (w.mem p).flags = false)
    (htrig : (w.clients c).lastPostedTriggerId .tx = (w.mem p).id) :
    Core cfg ⟨(w.append c .tx p).addLog (.tracked c p (w.mem p).id s), none⟩ fl
      (Function.update pl c (pl c ++ [p])) := by
  obtain ⟨ho, hst, hidle, hids⟩ := h.cur_ok _ rfl
  simp only at ho hst hidle hids
  have hsorted : (pl c ++ [p]).Pairwise fun q r => (w.mem q).id < (w.mem r).id := by
    refine List.pairwise_append.mpr ⟨h.posted_sorted c, List.pairwise_singleton _ _, ?_⟩
    intro q hq r hr
    rw [List.mem_singleton.mp hr]
    exact (hids c .tx hat).2 q hq
  have hl' : ∀ q ∈ pl c ++ [p], q ∈ pl c ∨ q = p := by
    intro q hq
    simpa using hq
  have hstatus : ∀ q, ((w.append c .tx p).mem q).status = (w.mem q).status := by
    intro q
    obtain ⟨n, v, hq⟩ := World.append_links (w := w) (c := c) (f := .tx) (p := p) q
    rw [hq]
  obtain ⟨h1, h2, h3⟩ := World.append_rest (w := w) (c := c) (f := .tx) (p := p)
  refine h.relink hat ho hnow (Nat.le_of_eq htrig.symm) hidle.1 h1 h2 h3 ?_ ?_ (fun q _ => hstatus q) ?_ ?_
    (World.append_dll (h.posted c) (h.posted_nodup c) (hidle.2.1 c) hidle.2.2.1 hidle.2.2.2) hsorted hl'
    (fun _ => (hstatus p).trans hst) (by intro k hk; cases hk) (by intro q st hc; cases hc)
  · intro d
    obtain ⟨x, y, hd⟩ := World.append_heads (w := w) (c := c) (f := .tx) (p := p) d
    rw [World.addLog_clients, hd]
    exact ⟨rfl, rfl⟩
  · intro q
    obtain ⟨n, v, hq⟩ := World.append_links (w := w) (c := c) (f := .tx) (p := p) q
    rw [World.addLog_mem, hq]
    exact ⟨rfl, rfl, rfl, rfl, rfl, rfl⟩
  · intro q hq hqp
    rw [World.addLog_mem, World.append_apart (h.posted c).tail_eq hq hqp]
    exact ⟨rfl, rfl⟩
  · intro d f hdf
    refine World.append_heads_apart ?_
    rcases hdf with hd | rfl
    · exact .inl hd
    · exact .inr (by decide)

end Core

/-! ## Leaving a posted list -/

section Delink
variable {c : Nat} {f : Flow} {p : Ptr}

/-- What delinking the head of a posted list does to the requests. -/
theorem World.delink_mem (hprev : (w.mem p).prev = none) (hnext : (w.mem p).next ≠ some p) (q : Ptr) :
    (w.delink c f p).mem q =
      if q = p then { w.mem p with prev := none, next := none }
      else if (w.mem p).next = some q then { w.mem q with prev := none } else w.mem q := by
  unfold World.delink
  simp only [hprev]
  cases hn : (w.mem p).next with
  | none =>
    simp only
    split <;> split <;> (simp only [World.setReq_mem, World.setClient_mem]; split <;> simp)
  | some r =>
    have hrp : p ≠ r := by rintro rfl; exact hnext hn
    simp only
    split <;> split <;>
    · simp only [World.setReq_mem, World.setClient_mem, Option.some.injEq, if_neg hrp]
      split
      · rfl
      · by_cases hq : q = r
        · simp [hq]
        · simp [hq, Ne.symm hq]

/-- What it does to the clients. -/
theorem World.delink_clients (hprev : (w.mem p).prev = none)
    (hp : (w.clients c).postedStreamReq f = some p) (d : Nat) :
    (w.delink c f p).clients d =
      if d = c then { w.clients c with
        postedStreamReq := Function.update (w.clients c).postedStreamReq f (w.mem p).next
        lastPostedStreamReq := if (w.clients c).lastPostedStreamReq f = some p then
          Function.update (w.clients c).lastPostedStreamReq f none else (w.clients c).lastPostedStreamReq }
      else w.clients d := by
  unfold World.delink
  simp only [hprev]
  cases hn : (w.mem p).next with
  | none =>
    simp only [hp, if_true]
    split
    · rename_i hl
      simp only [World.setClient_clients, if_true] at hl
      simp only [World.setReq_clients, World.setClient_clients]
      split <;> simp
    · rename_i hl
      simp only [World.setClient_clients, if_true] at hl
      simp only [World.setReq_clients, World.setClient_clients]
      split <;> simp
  | some r =>
    simp only [World.setReq_clients, hp, if_true]
    split
    · rename_i hl
      simp only [World.setClient_clients, World.setReq_clients, if_true] at hl
      simp only [World.setReq_clients, World.setClient_clients]
      split <;> simp
    · rename_i hl
      simp only [World.setClient_clients, World.setReq_clients, if_true] at hl
      simp only [World.setReq_clients, World.setClient_clients]
      split <;> simp

/-- The same for a head that has just been made pending. -/
theorem World.delink_pending_mem (hprev : (w.mem p).prev = none) (hnext : (w.mem p).next ≠ some p) (q : Ptr) :
    ((w.setStatus p .pending).delink c f p).mem q =
      if q = p then { w.mem p with status := .pending, prev := none, next := none }
      else if (w.mem p).next = some q then { w.mem q with prev := none } else w.mem q := by
  have hs : (w.setStatus p .pending).mem p = { w.mem p with status := .pending } := by simp [World.setStatus]
  rw [World.delink_mem (by rw [hs]; exact hprev) (by rw [hs]; exact hnext), hs]
  split
  · rfl
  · rename_i hq
    simp [World.setStatus, hq]

theorem World.delink_pending_clients (hprev : (w.mem p).prev = none)
    (hp : (w.clients c).postedStreamReq f = some p) (d : Nat) :
    ((w.setStatus p .pending).delink c f p).clients d =
      if d = c then { w.clients c with
        postedStreamReq := Function.update (w.clients c).postedStreamReq f (w.mem p).next
        lastPostedStreamReq := if (w.clients c).lastPostedStreamReq f = some p then
          Function.update (w.clients c).lastPostedStreamReq f none else (w.clients c).lastPostedStreamReq }
      else w.clients d := by
  have hs : (w.setStatus p .pending).mem p = { w.mem p with status := .pending } := by simp [World.setStatus]
  have hc : (w.setStatus p .pending).clients = w.clients := rfl
  rw [World.delink_clients (by rw [hs]; exact hprev) (by rw [hc]; exact hp), hs, hc]

/-- The list without its head; the tail is cleared when the head was the only
request. -/
theorem World.delink_pending_dll {l : List Ptr} (hd : Dll (fun q => (w.mem q).next) (fun q => (w.mem q).prev)
      ((w.clients c).postedStreamReq f) ((w.clients c).lastPostedStreamReq f) (p :: l)) (hnd : (p :: l).Nodup) :
    Dll (fun q => (((w.setStatus p .pending).delink c f p).mem q).next)
      (fun q => (((w.setStatus p .pending).delink c f p).mem q).prev)
      ((((w.setStatus p .pending).delink c f p).clients c).postedStreamReq f)
      ((((w.setStatus p .pending).delink c f p).clients c).lastPostedStreamReq f) l := by
  obtain ⟨hpl, hprev, -, hnext⟩ := hd.head_links hnd
  have hm := fun q => World.delink_pending_mem (c := c) (f := f) hprev hnext q
  have hcl := fun d => World.delink_pending_clients (c := c) hprev hd.fwd.1 d
  have hlast := hd.tail_eq_head_iff hpl
  have hheads : (((w.setStatus p .pending).delink c f p).clients c).postedStreamReq f = (w.mem p).next ∧
      (((w.setStatus p .pending).delink c f p).clients c).lastPostedStreamReq f =
        if l = [] then none else (w.clients c).lastPostedStreamReq f := by
    simp only [hcl, if_true, Function.update_self, true_and]
    by_cases hl : l = []
    · rw [if_pos (hlast.mpr hl), if_pos hl, Function.update_self]
    · rw [if_neg (fun hp => hl (hlast.mp hp)), if_neg hl]
  rw [hheads.1, hheads.2]
  refine hd.tail_of_cons hnd ?_ ?_ ?_
  · intro q hq
    have hqp : q ≠ p := by rintro rfl; exact hpl hq
    simp only [hm, if_neg hqp]
    split <;> rfl
  · intro q hq
    have hqp : q ≠ p := by rintro rfl; exact hnext hq
    simp only [hm, if_neg hqp]
    rw [if_pos hq]
  · intro q hq hn
    have hqp : q ≠ p := by rintro rfl; exact hpl hq
    simp only [hm, if_neg hqp]
    rw [if_neg hn]

/-- What it leaves alone. -/
theorem World.delink_rest : (w.delink c f p).frontier = w.frontier ∧
    (w.delink c f p).mpRequestFreeList = w.mpRequestFreeList ∧ (w.delink c f p).cq = w.cq ∧
    (w.delink c f p).streams = w.streams ∧ (w.delink c f p).log = w.log ∧ (w.delink c f p).fills = w.fills := by
  unfold World.delink
  dsimp only
  generalize (w.mem p).next = n, (w.mem p).prev = v
  cases n <;> cases v <;> (dsimp only; split <;> split <;> exact ⟨rfl, rfl, rfl, rfl, rfl, rfl⟩)

/-- Of a request it changes the links at most. -/
theorem World.delink_links (q : Ptr) :
    ∃ n v, (w.delink c f p).mem q = { w.mem q with next := n, prev := v } := by
  have hprev : ∀ (u : World) x y, (∃ n v, u.mem q = { w.mem q with next := n, prev := v }) →
      ∃ n v, (u.setReq x fun r => { r with prev := y }).mem q = { w.mem q with next := n, prev := v } := by
    rintro u x y ⟨n, v, hu⟩
    rw [World.setReq_mem]
    split
    · rename_i hq; rw [← hq, hu]; exact ⟨n, y, rfl⟩
    · exact ⟨n, v, hu⟩
  have hnext : ∀ (u : World) x y, (∃ n v, u.mem q = { w.mem q with next := n, prev := v }) →
      ∃ n v, (u.setReq x fun r => { r with next := y }).mem q = { w.mem q with next := n, prev := v } := by
    rintro u x y ⟨n, v, hu⟩
    rw [World.setReq_mem]
    split
    · rename_i hq; rw [← hq, hu]; exact ⟨y, v, rfl⟩
    · exact ⟨n, v, hu⟩
  have hboth : ∀ (u : World), (∃ n v, u.mem q = { w.mem q with next := n, prev := v }) →
      ∃ n v, (u.setReq p fun r => { r with prev := none, next := none }).mem q =
        { w.mem q with next := n, prev := v } := by
    rintro u ⟨n, v, hu⟩
    rw [World.setReq_mem]
    split
    · rename_i hq; rw [← hq, hu]; exact ⟨none, none, rfl⟩
    · exact ⟨n, v, hu⟩
  have hself : ∃ n v, w.mem q = { w.mem q with next := n, prev := v } := ⟨_, _, rfl⟩
  unfold World.delink
  dsimp only
  refine hboth _ ?_
  generalize (w.mem p).next = n, (w.mem p).prev = v
  cases n with
  | none =>
    cases v with
    | none => dsimp only; split <;> split <;> exact hself
    | some y => dsimp only; split <;> split <;> exact hnext _ _ _ hself
  | some x =>
    cases v with
    | none => dsimp only; split <;> split <;> exact hprev _ _ _ hself
    | some y => dsimp only; split <;> split <;> exact hnext _ _ _ (hprev _ _ _ hself)

/-- Of a client it changes the head and the tail of the list at most. -/
theorem World.delink_heads (d : Nat) :
    ∃ h t, (w.delink c f p).clients d = { w.clients d with postedStreamReq := h, lastPostedStreamReq := t } := by
  have hset : ∀ (u : World) (g : Client → Client),
      (∃ h t, u.clients d = { w.clients d with postedStreamReq := h, lastPostedStreamReq := t }) →
      (∀ cl, ∃ h t, g cl = { cl with postedStreamReq := h, lastPostedStreamReq := t }) →
      ∃ h t, (u.setClient c g).clients d = { w.clients d with postedStreamReq := h, lastPostedStreamReq := t } := by
    rintro u g ⟨h, t, hu⟩ hg
    rw [World.setClient_clients]
    split
    · rename_i hd
      obtain ⟨h', t', hg'⟩ := hg (u.clients c)
      rw [hg', ← hd, hu]
      exact ⟨h', t', rfl⟩
    · exact ⟨h, t, hu⟩
  have hhead : ∀ (u : World) (r : Option Ptr),
      (∃ h t, u.clients d = { w.clients d with postedStreamReq := h, lastPostedStreamReq := t }) →
      ∃ h t, (if (u.clients c).postedStreamReq f = some p then u.setClient c fun cl =>
          { cl with postedStreamReq := Function.update cl.postedStreamReq f r } else u).clients d =
        { w.clients d with postedStreamReq := h, lastPostedStreamReq := t } := by
    intro u r hu
    split
    · exact hset u _ hu (fun cl => ⟨_, _, rfl⟩)
    · exact hu
  have htail : ∀ (u : World) (r : Option Ptr),
      (∃ h t, u.clients d = { w.clients d with postedStreamReq := h, lastPostedStreamReq := t }) →
      ∃ h t, (if (u.clients c).lastPostedStreamReq f = some p then u.setClient c fun cl =>
          { cl with lastPostedStreamReq := Function.update cl.lastPostedStreamReq f r } else u).clients d =
        { w.clients d with postedStreamReq := h, lastPostedStreamReq := t } := by
    intro u r hu
    split
    · exact hset u _ hu (fun cl => ⟨_, _, rfl⟩)
    · exact hu
  unfold World.delink
  refine htail _ _ (hhead _ _ ?_)
  generalize (w.mem p).next = n, (w.mem p).prev = v
  cases n <;> cases v <;> exact ⟨_, _, rfl⟩

/-- Delinking reads and writes the requests and the clients only. -/
theorem World.delink_congr {v : World} (hm : v.mem = w.mem) (hc : v.clients = w.clients) :
    (v.delink c f p).mem = (w.delink c f p).mem ∧ (v.delink c f p).clients = (w.delink c f p).clients := by
  obtain ⟨m, _, _, _, cl, _, _, _, _, _, _⟩ := v
  obtain ⟨m', _, _, _, cl', _, _, _, _, _, _⟩ := w
  dsimp only at hm hc
  subst hm hc
  unfold World.delink
  dsimp only
  generalize (m p).next = n, (m p).prev = r
  by_cases h₁ : (cl c).postedStreamReq f = some p <;> by_cases h₂ : (cl c).lastPostedStreamReq f = some p <;>
    cases n <;> cases r <;> simp [World.setReq, World.setClient, h₁, h₂]

/-! Handing over, as one update. -/

/-- Handing over an accepted request makes it pending and unlinks it. -/
theorem World.handOver_eq (w : World) (c : Nat) (f : Flow) (p : Ptr) :
    ((w.accept c .tx p).handOver c f p).mem = ((w.setStatus p .pending).delink c f p).mem ∧
    ((w.accept c .tx p).handOver c f p).clients = ((w.setStatus p .pending).delink c f p).clients :=
  World.delink_congr rfl rfl

theorem World.handOver_clients (w : World) (c : Nat) (f : Flow) (p : Ptr) (d : Nat) :
    ∃ h t, ((w.accept c .tx p).handOver c f p).clients d =
      { w.clients d with postedStreamReq := h, lastPostedStreamReq := t } := by
  obtain ⟨h, t, hd⟩ := World.delink_heads (c := c) (f := f) (p := p)
    (w := ((w.accept c .tx p).addLog (.handed c p ((w.accept c .tx p).mem p).id
      (((w.accept c .tx p).clients c).lastTriggerId f))).setStatus p .pending) d
  exact ⟨h, t, hd⟩

theorem World.handOver_mem (w : World) (c : Nat) (f : Flow) (p q : Ptr) :
    ∃ n v, ((w.accept c .tx p).handOver c f p).mem q =
      { w.mem q with status := if q = p then .pending else (w.mem q).status, next := n, prev := v } := by
  obtain ⟨n, v, hd⟩ := World.delink_links (c := c) (f := f) (p := p)
    (w := ((w.accept c .tx p).addLog (.handed c p ((w.accept c .tx p).mem p).id
      (((w.accept c .tx p).clients c).lastTriggerId f))).setStatus p .pending) q
  refine ⟨n, v, ?_⟩
  rw [World.handOver, hd]
  simp only [World.setStatus, World.setReq_mem, World.addLog_mem]
  split
  · rename_i hq; rw [hq]; rfl
  · rfl

theorem World.handOver_rest (w : World) (c : Nat) (f : Flow) (p : Ptr) :
    ((w.accept c .tx p).handOver c f p).cq = (w.accept c .tx p).cq ∧
    ((w.accept c .tx p).handOver c f p).streams = w.streams ∧
    ((w.accept c .tx p).handOver c f p).fills = w.fills ∧
    ((w.accept c .tx p).handOver c f p).log = w.log ++ [.accepted c .tx p (w.mem p).id,
      .handed c p (w.mem p).id ((w.clients c).lastTriggerId f)] := by
  obtain ⟨-, -, h1, h2, h3, h4⟩ := World.delink_rest (c := c) (f := f) (p := p) (w := ((w.accept c .tx p).addLog
    (.handed c p ((w.accept c .tx p).mem p).id (((w.accept c .tx p).clients c).lastTriggerId f))).setStatus p .pending)
  refine ⟨h1, h2, h4, ?_⟩
  rw [World.handOver, h3]
  show (w.log ++ [_]) ++ [_] = w.log ++ [_, _]
  rw [List.append_assoc]
  rfl

end Delink

namespace Core

/-- The head of a posted list has nothing before it and the rest of the list
after it. -/
theorem head_links {c : Nat} {p : Ptr} {l : List Ptr} (h : Core cfg ⟨w, cur⟩ fl pl) (hpl : pl c = p :: l) :
    p ∉ l ∧ (w.mem p).prev = none ∧ (∀ q, (w.mem p).next = some q → q ∈ l) ∧ (w.mem p).next ≠ some p := by
  have hd := h.posted c
  have hnd := h.posted_nodup c
  rw [hpl] at hd hnd
  exact hd.head_links hnd

/-- The head of the posted list, made pending, leaves the list. -/
theorem unlink {c : Nat} {p : Ptr} {l : List Ptr} (h : Core cfg ⟨w, cur⟩ fl pl) (hpl : pl c = p :: l) :
    Core cfg ⟨(w.setStatus p .pending).delink c .tx p, cur⟩ fl (Function.update pl c l) := by
  obtain ⟨ho, hat, -, hnow, hid⟩ := h.posted_mem c p (by rw [hpl]; exact List.mem_cons_self)
  obtain ⟨hpl', hprev, hmem, hnext⟩ := h.head_links hpl
  have hd := h.posted c
  have hnd := h.posted_nodup c
  rw [hpl] at hd hnd
  have hm := fun q => World.delink_pending_mem (c := c) (f := .tx) hprev hnext q
  have hcl := fun d => World.delink_pending_clients (c := c) hprev hd.fwd.1 d
  obtain ⟨h1, h2, h3, -⟩ := World.delink_rest (w := w.setStatus p .pending) (c := c) (f := .tx) (p := p)
  refine h.relink hat ho hnow hid ?_ h1 h2 h3 ?_ ?_ ?_ ?_ ?_ ?_ ?_ ?_ ?_ ?_ (fun _ _ hc => hc)
  · rintro c' f' wr hwr rfl
    obtain ⟨-, -, -, hpend⟩ := h.cq_mem c' f' wr hwr
    rw [(h.posted_mem c _ (by rw [hpl]; exact List.mem_cons_self)).2.2.1] at hpend
    exact hpend
  · intro d
    rw [hcl]
    split
    · rename_i hdc; rw [hdc]; exact ⟨rfl, rfl⟩
    · exact ⟨rfl, rfl⟩
  · intro q
    rw [hm]
    split
    · rename_i hq; rw [hq]; exact ⟨rfl, rfl, rfl, rfl, rfl, rfl⟩
    · split <;> exact ⟨rfl, rfl, rfl, rfl, rfl, rfl⟩
  · intro q hq
    rw [hm, if_neg hq]
    split <;> rfl
  · intro q hq hqp
    rw [hm, if_neg hqp, if_neg]
    · exact ⟨rfl, rfl⟩
    · intro hn
      rw [hpl] at hq
      exact hq (List.mem_cons_of_mem p (hmem q hn))
  · intro d g hdg
    rw [hcl]
    split
    · rename_i hdc
      have hg : g = .rx := hdg.resolve_left (not_not.mpr hdc)
      subst hg
      rw [hdc]
      refine ⟨by simp, ?_⟩
      by_cases hl : (w.clients c).lastPostedStreamReq .tx = some p <;> simp [hl]
    · exact ⟨rfl, rfl⟩
  · exact World.delink_pending_dll hd hnd
  · have := h.posted_sorted c
    rw [hpl] at this
    exact (List.pairwise_cons.mp this).2
  · intro q hq
    rw [hpl]
    exact .inl (List.mem_cons_of_mem p hq)
  · intro hp
    exact absurd hp hpl'
  · intro k hk
    refine ⟨hk, ?_, ?_⟩
    · rintro rfl
      exact (h.cur_ok k hk).2.2.1.2.1 c (by rw [hpl]; exact List.mem_cons_self)
    · intro q hq
      rw [hpl]
      exact List.mem_cons_of_mem p hq

/-- The posted list hands its head to the HCA. -/
theorem handOver {c : Nat} {f : Flow} {p : Ptr} (h : Core cfg ⟨w, cur⟩ fl pl)
    (hp : (w.clients c).postedStreamReq f = some p) :
    f = .tx ∧ ∃ l, pl c = p :: l ∧
      Core cfg ⟨(w.accept c .tx p).handOver c f p, cur⟩ fl (Function.update pl c l) := by
  have hf : f = .tx := by
    cases f with
    | tx => rfl
    | rx =>
      have := h.posted_rx c
      simp only [hp] at this
      cases this
  subst hf
  refine ⟨rfl, ?_⟩
  have hd := h.posted c
  simp only [hp] at hd
  obtain ⟨l, hpl, -⟩ := Linked.eq_cons hd.fwd
  have hmem : p ∈ pl c := by rw [hpl]; exact List.mem_cons_self
  obtain ⟨ho, hat, hst, hnow, -⟩ := h.posted_mem c p hmem
  have hncur : ∀ k, cur = some k → k.ptr ≠ p := by
    rintro k hk rfl
    exact (h.cur_ok k hk).2.2.1.2.1 c hmem
  have hwr : (w.mem p).WrOk p := by
    rcases h.wr_ok p ho with ⟨st, hc⟩ | hw
    · exact absurd rfl (hncur _ hc)
    · exact hw
  refine ⟨l, hpl, ?_⟩
  -- unlinked first, then accepted: the two orders differ in the log only
  have hu := h.unlink hpl
  obtain ⟨h1, h2, h3, -⟩ := World.delink_rest (w := w.setStatus p .pending) (c := c) (f := .tx) (p := p)
  obtain ⟨e1, e2, e3, -⟩ := World.delink_rest
    (w := ((w.accept c .tx p).addLog (.handed c p ((w.accept c .tx p).mem p).id
      (((w.accept c .tx p).clients c).lastTriggerId .tx))).setStatus p .pending) (c := c) (f := .tx) (p := p)
  obtain ⟨-, hprev, -, hnext⟩ := h.head_links hpl
  have hcongr := w.handOver_eq c .tx p
  have hidle : ∀ c' f', ∀ wr ∈ w.cq c' f', wr.wrId ≠ p := by
    rintro c' f' wr hm rfl
    have := (h.cq_mem c' f' wr hm).2.2.2
    rw [hst] at this
    exact this
  have hself : ((w.setStatus p .pending).delink c .tx p).mem p =
      { w.mem p with status := .pending, prev := none, next := none } := by
    rw [World.delink_pending_mem hprev hnext, if_pos rfl]
  refine hu.launch (p := p) (c := c) (f := .tx) (by rw [hself]; exact ho) ?_ (by rw [hself]; trivial) ?_ hncur ?_ ?_ ?_
  · rw [World.At, hself]
    exact hat
  · rw [h3]
    exact hidle
  · refine ⟨by rw [World.handOver, e1, h1]; rfl, by rw [World.handOver, e2, h2]; rfl, ?_, ?_⟩
    · intro d
      rw [hcongr.2]
    · intro q
      rw [hcongr.1]
  · intro q
    rw [hcongr.1]
  · intro c' f'
    rw [World.handOver, e3, h3, hself]
    show (w.accept c .tx p).cq c' f' = _
    rw [World.accept_cq hwr]
    simp only [hnow, and_true]
    rfl

/-! ## Taking a request from the pool -/

/-- A new region becomes the free list. -/
theorem allocate (h : Core cfg ⟨w, none⟩ fl pl) (hf : w.mpRequestFreeList = none) :
    Core cfg ⟨w.allocateRequests, none⟩ (List.range' w.frontier mpRequestLimit) pl := by
  have hnil : fl = [] := by
    have := h.free
    simp only [FreeList, hf] at this
    exact this.eq_nil
  subst hnil
  have hold : ∀ q, (w.mem q).owner ≠ none ↔ q < w.frontier := by
    intro q
    simpa using h.owner q
  have hmem : ∀ q, q < w.frontier → w.allocateRequests.mem q = w.mem q := by
    intro q hq
    simp only [World.allocateRequests]
    rw [if_neg (by omega)]
  have hfields : ∀ q, (w.allocateRequests.mem q).owner = (w.mem q).owner ∧
      (w.allocateRequests.mem q).status = (w.mem q).status := by
    intro q
    simp only [World.allocateRequests]
    split <;> exact ⟨rfl, rfl⟩
  refine h.repool ?_ rfl (fun _ => ⟨rfl, rfl, rfl, le_rfl⟩) ?_ ?_ (by intro k hk; cases hk)
  · constructor
    case free => exact freeList_allocate w
    case nodup => exact List.nodup_range'
    case lt =>
      intro q hq
      have := List.mem_range'_1.mp hq
      exact this.2
    case owner =>
      -- the region lies above the requests in use
      intro q
      show (w.allocateRequests.mem q).owner ≠ none ↔ q < w.frontier + mpRequestLimit ∧ _
      rw [(hfields q).1, hold q, lt_region_iff]
    case status =>
      intro q hq
      rw [(hfields q).1] at hq
      rw [(hfields q).2]
      exact h.free_status q hq
  · intro q hq _
    exact hmem q ((hold q).mp hq)
  · intro q hq
    rw [(hfields q).1] at hq
    exact .inl (hmem q ((hold q).mp hq))

theorem refill (h : Core cfg ⟨w, none⟩ fl pl) : ∃ fl', Core cfg ⟨w.refill, none⟩ (w.nextFree :: fl') pl := by
  by_cases hn : w.mpRequestFreeList = none
  · have hr : w.refill = w.allocateRequests := by simp [World.refill, hn]
    have hc := h.allocate hn
    rw [← hr] at hc
    obtain ⟨fl', he⟩ := hc.free.cons_of_refill
    exact ⟨fl', by rw [← he]; exact hc⟩
  · have hr : w.refill = w := by simp [World.refill, hn]
    have hc := h
    rw [← hr] at hc
    obtain ⟨fl', he⟩ := hc.free.cons_of_refill
    exact ⟨fl', by rw [← he]; exact hc⟩

/-- The first free request leaves the free list. -/
theorem pooled_take {fn : Fn} {c rank : Nat} {type : ReqType} {st : State} {fl' : List Ptr}
    (h : Pooled w.refill (w.nextFree :: fl')) : Pooled (w.take fn c rank type st) fl' := by
  have hnd := List.nodup_cons.mp h.nodup
  have hother := fun q => w.take_other fn c rank type st (q := q)
  obtain ⟨-, -, -, hown, -, -, -⟩ := w.take_mem fn c rank type st
  constructor
  case free => exact FreeList.take h.free hnd.1
  case nodup => exact hnd.2
  case lt =>
    intro q hq
    exact h.lt q (List.mem_cons_of_mem _ hq)
  case owner =>
    intro q
    by_cases hq : q = w.nextFree
    · subst hq
      have hlt := h.lt _ List.mem_cons_self
      simp only [hown]
      exact ⟨fun _ => ⟨hlt, hnd.1⟩, fun _ => by simp⟩
    · simp only [hother q hq]
      have := h.owner q
      rw [List.mem_cons, not_or] at this
      exact this.trans ⟨fun hm => ⟨hm.1, hm.2.2⟩, fun hm => ⟨hm.1, hq, hm.2⟩⟩
  case status =>
    intro q hq
    by_cases hqn : q = w.nextFree
    · subst hqn
      simp only [hown] at hq
      cases hq
    · simp only [hother q hqn] at hq ⊢
      exact h.status q hq

/-- The call takes the first free request. -/
theorem take {fn : Fn} {c : Nat} {type : ReqType} {st : State} (h : Core cfg ⟨w, none⟩ fl pl)
    (hc : cfg.clientIndex (cfg.mpiRank c) = some c) (hty : type ≠ .null ∧ type.flow = fn.flow)
    (hfn : fn = .mpSendPrepare → st = .prepared) :
    ∃ fl', Core cfg ⟨w.take fn c (cfg.mpiRank c) type st, some ⟨w.nextFree, st, false⟩⟩ fl' pl := by
  obtain ⟨fl', hr⟩ := h.refill
  refine ⟨fl', ?_⟩
  have hcl := w.refill_clients
  have ho : (w.refill.mem w.nextFree).owner = none := by
    by_contra hne
    exact ((hr.owner _).mp hne).2 List.mem_cons_self
  have hother := fun q => w.take_other fn c (cfg.mpiRank c) type st (q := q)
  obtain ⟨htype, hpeer, hst, hown, hflags, -, hid⟩ := w.take_mem fn c (cfg.mpiRank c) type st
  refine hr.repool (pooled_take hr.pooled) rfl ?_ ?_ ?_ ?_
  · intro d
    rw [World.take_clients, hcl]
    split
    · rename_i hd
      rw [hd]
      exact ⟨rfl, rfl, rfl, Nat.le_succ _⟩
    · exact ⟨rfl, rfl, rfl, le_rfl⟩
  · intro q hq _
    exact hother q (by rintro rfl; exact hq ho)
  · intro q _
    by_cases hq : q = w.nextFree
    · exact .inr ⟨_, rfl, hq.symm⟩
    · exact .inl (hother q hq)
  · intro k hk
    cases hk
    refine ⟨ho, ⟨fn, hown, by simpa only [htype] using hty, hfn⟩, hst, w.take_links fn c _ type st, hflags, ?_, rfl⟩
    -- the new id is the next one of its client
    intro d hd
    rw [hpeer, hc] at hd
    cases hd
    simp only [hid, hcl, World.take_clients, if_true]
    omega

/-- What `mp_init` leaves. -/
theorem init (cfg : Config) : ∃ fl, Core cfg ⟨World.init, none⟩ fl fun _ => [] := by
  have h : Core cfg ⟨World.empty, none⟩ [] fun _ => [] := by
    constructor <;> simp [World.empty, FreeList, Linked.nil, Dll.nil, World.At]
  exact ⟨_, h.allocate rfl⟩

/-- Every step keeps the invariant, and it changes a posted list by appending
the request it tracks or by dropping the head it hands over. -/
theorem step_posted {Good : Ans → Prop} {l : Lbl} {a b : Mach} (h : Core cfg a fl pl) (hs : Step cfg Good l a b) :
    ∃ fl', Core cfg b fl' (l.posted pl) := by
  cases hs with
  | take fn c type st hc hty hfl _ hfn =>
    obtain ⟨fl', h'⟩ := h.take hc ⟨hty, hfl⟩ hfn
    exact ⟨fl', h'⟩
  | build g hg hok => exact ⟨fl, h.build rfl hg hok⟩
  | @accept w st c f p hp hat =>
    obtain ⟨ho, hst, hidle, -⟩ := h.cur_ok _ rfl
    have hwr : (w.mem p).WrOk p := by
      rcases h.wr_ok p ho with ⟨st', hc⟩ | hw
      · cases hc
      · exact hw
    have hl := h.leave
    by_cases hn : nowait (w.mem p).flags = false
    · refine ⟨fl, hl.launch ho hat (by rw [hst]; exact hp) hidle.1 (by intro k hk; cases hk)
        ⟨rfl, rfl, fun _ => rfl, fun _ => rfl⟩ (fun _ => rfl) ?_⟩
      intro c' f'
      rw [World.accept_cq hwr]
      simp only [hn, and_true]
    · refine ⟨fl, hl.congr ⟨⟨rfl, rfl, fun _ => rfl, fun _ => rfl⟩, ?_, fun _ => rfl⟩⟩
      funext c' f'
      rw [World.accept_cq hwr, if_neg (fun hcf => hn hcf.2.2)]
  | fill => exact ⟨fl, h.congr (.fillWait _ _ _ _)⟩
  | @reap w cur c f k wr ans hk hp _ _ _ =>
    obtain ⟨h1, h2, -⟩ := World.complete_rest cfg w c f k wr
    refine ⟨fl, h.reap hk ⟨h1, h2, ?_, ?_⟩ ?_ (World.complete_cq cfg)⟩
    · intro d
      simp only [World.complete_clients]
      split
      · rename_i hd; rw [hd]; rfl
      · rfl
    · intro q
      simp only [World.complete_mem cfg hp]
      split <;> rfl
    · intro q
      simp only [World.complete_mem cfg hp]
      split <;> rfl
  | handOver _ hp _ _ =>
    obtain ⟨-, l, hl, h'⟩ := h.handOver hp
    refine ⟨fl, ?_⟩
    simp only [Lbl.posted, hl, List.tail_cons]
    exact h'
  | gpu => exact ⟨fl, h.congr (.gpuStep _ _)⟩
  | store => exact ⟨fl, h.congr (.setWord _ _ _)⟩
  | stamp _ hat hp => exact ⟨fl, h.stamp hat hp⟩
  | track _ hat hnow htrig _ => exact ⟨fl, h.track hat hnow htrig⟩
  | arm => exact ⟨fl, h.congr (.arm _ _ _ _)⟩
  | armTail => exact ⟨fl, h.congr (.arm _ _ _ _)⟩
  | enqueue => exact ⟨fl, h.congr ⟨⟨rfl, rfl, fun _ => rfl, fun _ => rfl⟩, rfl, fun _ => rfl⟩⟩
  | waitCpu hp =>
    refine ⟨fl, h.restart (.inl hp) (.setReq _ _ _ ?_) rfl ?_⟩
    · intro _; rfl
    · intro q
      rw [World.setReq_mem]
      split <;> rfl
  | waitStream s _ hp =>
    refine ⟨fl, h.restart hp (.setReq _ _ _ ?_) rfl ?_⟩
    · intro _; rfl
    · intro q
      rw [World.setReq_mem]
      split <;> rfl
  | give => exact ⟨fl, h.congr (.addLog _ _)⟩
  | touch s =>
    refine ⟨fl, h.congr (.setReq _ _ _ ?_ ?_)⟩ <;> (intro _; rfl)
  | push d => exact ⟨fl, h.congr ⟨⟨rfl, rfl, fun _ => rfl, fun _ => rfl⟩, rfl, fun _ => rfl⟩⟩
  | note => exact ⟨fl, h.congr (.addLog _ _)⟩
  | release hp => exact ⟨_, h.release hp⟩
  | leave => exact ⟨fl, h.leave⟩

theorem step {Good : Ans → Prop} {l : Lbl} {a b : Mach} (h : CoreInv cfg a) (hs : Step cfg Good l a b) :
    CoreInv cfg b := by
  obtain ⟨fl, pl, h⟩ := h
  obtain ⟨fl', h'⟩ := h.step_posted hs
  exact ⟨fl', _, h'⟩

end Core

end LibMp
