import LibMp.Effects

/- The request machine follows the progress functions of the library.

   The rules first: how the machine follows reading, updating, asking the
   outside, branching. Then one lemma per function of mp.c that progresses or
   waits, along its text. Progress uses three kinds of steps only, and these
   leave alone what a request is (`Keeps`), so a call that progresses while it
   holds a request finds it as it was. -/
namespace LibMp
variable {cfg : Config} {Good : Ans → Prop} {K : Lbl → Mach → Prop}

/-! ## Rules -/

namespace Follows
variable {α β : Type} {a : Mach} {Q : α → Mach → Prop} {T : β → Mach → Prop}

theorem pure {x : α} (h : Q x a) : Follows cfg Good K a (Pure.pure x) Q :=
  Sim.pure (fun _ _ _ hb => by rw [hb]; exact h)

theorem conseq {m : M α} {Q' : α → Mach → Prop} (h : Follows cfg Good K a m Q) (hq : ∀ x b, Q x b → Q' x b) :
    Follows cfg Good K a m Q' := Sim.conseq h (fun _ _ hb => hb) (fun x b _ hb => hq x b hb)

theorem bind {m : M α} {f : α → M β} (hm : Follows cfg Good K a m Q)
    (hf : ∀ x b, Q x b → Follows cfg Good K b (f x) T) : Follows cfg Good K a (m >>= f) T :=
  Sim.bind hm (fun x => Sim.intro (fun b s hR hb => by
    intro b' s' hR' hb'
    exact hf x b hb b' s' hR' hb'.1))

theorem world {f : World → M β} (h : Follows cfg Good K a (f a.w) T) :
    Follows cfg Good K a (LibMp.world >>= f) T := by
  rintro b s hR rfl
  have hrun : (LibMp.world >>= f) s = f s.w s := rfl
  rw [hrun, ← hR.1]
  exact h b s hR rfl

theorem request {p : Ptr} {f : Request → M β} (h : Follows cfg Good K a (f (a.w.mem p)) T) :
    Follows cfg Good K a (LibMp.request p >>= f) T := by
  rintro b s hR rfl
  have hrun : (LibMp.request p >>= f) s = f (s.w.mem p) s := rfl
  rw [hrun, ← hR.1]
  exact h b s hR rfl

theorem client {c : Nat} {f : Client → M β} (h : Follows cfg Good K a (f (a.w.clients c)) T) :
    Follows cfg Good K a (LibMp.client c >>= f) T := by
  rintro b s hR rfl
  have hrun : (LibMp.client c >>= f) s = f (s.w.clients c) s := rfl
  rw [hrun, ← hR.1]
  exact h b s hR rfl

/-- An update the machine follows by moves of its own. -/
theorem update {g : World → World} {f : Unit → M β} {b : Mach} (hm : Moves (Move cfg Good K) a b)
    (hb : b.w = g a.w) (h : Follows cfg Good K b (f ()) T) : Follows cfg Good K a (LibMp.update g >>= f) T := by
  rintro a' s hR rfl
  have hrun : (LibMp.update g >>= f) s = f () { s with w := g s.w } := rfl
  rw [hrun]
  obtain ⟨b', hm', hq⟩ := h b { s with w := g s.w } ⟨by rw [hb, hR.1], hR.2⟩ rfl
  exact ⟨b', hm.trans hm', hq⟩

theorem update_last {g : World → World} {Q : Unit → Mach → Prop} {b : Mach} (hm : Moves (Move cfg Good K) a b)
    (hb : b.w = g a.w) (h : Q () b) : Follows cfg Good K a (LibMp.update g) Q := by
  refine Sim.modify (fun a' s hR ha => ⟨b, by rw [ha]; exact hm, ⟨?_, ?_⟩, h⟩)
  · rw [ha] at hR
    rw [hb, hR.1]
  · exact hR.2

theorem answer (hG : Good {}) {f : Ans → M β} (h : ∀ ans, Good ans → Follows cfg Good K a (f ans) T) :
    Follows cfg Good K a (LibMp.answer >>= f) T := by
  rintro b s hR rfl
  cases ht : s.tape with
  | nil =>
    have hrun : (LibMp.answer >>= f) s = f {} s := by simp [Prog.bind_run, LibMp.answer, ht]
    rw [hrun]
    exact h {} hG b s hR rfl
  | cons ans tape =>
    have hrun : (LibMp.answer >>= f) s = f ans { s with tape := tape } := by
      simp [Prog.bind_run, LibMp.answer, ht]
    rw [hrun]
    refine h ans (hR.2 ans (by rw [ht]; exact List.mem_cons_self)) b _ ⟨hR.1, ?_⟩ rfl
    intro ans' ha'
    exact hR.2 ans' (by rw [ht]; exact List.mem_cons_of_mem ans ha')

theorem returnCode (hG : Good {}) {f : Int → M β}
    (h : ∀ ans, Good ans → Follows cfg Good K a (f ans.rc) T) :
    Follows cfg Good K a (LibMp.returnCode >>= f) T := by
  have hrun : LibMp.returnCode >>= f = LibMp.answer >>= fun ans => f ans.rc := by
    funext s
    cases ht : s.tape <;> simp [Prog.bind_run, Prog.pure_run, LibMp.returnCode, LibMp.answer, ht]
  rw [hrun]
  exact answer hG h

theorem stop {e : Stop} (h : ∀ s, Represents Good a s → Halt cfg Good e a s) :
    Follows cfg Good K a (Prog.stop e : M α) Q :=
  Sim.stop (fun b s hR hb => by rw [hb] at hR ⊢; exact h s hR)

theorem require {b : Bool} {e : Stop} {f : Unit → M β}
    (hs : b = false → ∀ s, Represents Good a s → Halt cfg Good e a s)
    (h : b = true → Follows cfg Good K a (f ()) T) : Follows cfg Good K a (Prog.require b e >>= f) T := by
  refine Sim.bind (Q := fun _ b' _ => b' = a ∧ b = true) (Sim.require ?_ ?_) ?_
  · intro b' s _ hb' hb
    exact ⟨hb', hb⟩
  · intro b' s hR hb' hb
    rw [hb'] at hR ⊢
    exact hs hb s hR
  · intro _
    exact Sim.intro (fun b' s _ hb => by
      rintro b'' s'' hR'' ⟨rfl, -⟩
      exact h hb.2 b'' s'' hR'' hb.1)

theorem ite {c : Prop} [Decidable c] {m₁ m₂ : M α} (h₁ : c → Follows cfg Good K a m₁ Q)
    (h₂ : ¬c → Follows cfg Good K a m₂ Q) : Follows cfg Good K a (if c then m₁ else m₂) Q := Sim.ite h₁ h₂

/-- What a program that is followed returned, the machine has reached. -/
theorem ok {m : M α} (h : Follows cfg Good K a m Q) {s s' : Sys} {x : α} (hR : Represents Good a s)
    (hr : m s = (.ok x, s')) : ∃ b, Moves (Move cfg Good K) a b ∧ Represents Good b s' ∧ Q x b := by
  obtain ⟨b, hm, hok, -⟩ := h a s hR rfl
  rw [hr] at hok
  obtain ⟨hR', hq⟩ := hok x rfl
  exact ⟨b, hm, hR', hq⟩

/-- Where a program that is followed is still in a loop, the machine is. -/
theorem spinning {m : M α} (h : Follows cfg Good K a m Q) {s s' : Sys} (hR : Represents Good a s)
    (hr : m s = (.error .spinning, s')) : ∃ b, Moves (Move cfg Good K) a b ∧ b.w = s'.w := by
  obtain ⟨b, hm, -, herr⟩ := h a s hR rfl
  rw [hr] at herr
  exact ⟨b, hm, (herr _ rfl).1⟩

end Follows

/-! ## What progress leaves alone -/

/-- The fields of a request that progress leaves alone. -/
def Request.SameOp (r r' : Request) : Prop :=
  r'.type = r.type ∧ r'.peer = r.peer ∧ r'.id = r.id ∧ r'.flags = r.flags ∧ r'.inWr = r.inWr ∧
    r'.owner = r.owner ∧ r'.trigger = r.trigger ∧ r'.gdsWaitInfo = r.gdsWaitInfo

/-- The machine state `b` has the requests of `a`, in the same hands. -/
structure Keeps (a b : Mach) : Prop where
  cur : b.cur = a.cur
  req : ∀ q, (a.w.mem q).SameOp (b.w.mem q)

theorem Request.SameOp.refl (r : Request) : r.SameOp r := ⟨rfl, rfl, rfl, rfl, rfl, rfl, rfl, rfl⟩

theorem Request.SameOp.trans {r₁ r₂ r₃ : Request} (h₁ : r₁.SameOp r₂) (h₂ : r₂.SameOp r₃) : r₁.SameOp r₃ := by
  obtain ⟨a1, a2, a3, a4, a5, a6, a7, a8⟩ := h₁
  obtain ⟨b1, b2, b3, b4, b5, b6, b7, b8⟩ := h₂
  exact ⟨b1.trans a1, b2.trans a2, b3.trans a3, b4.trans a4, b5.trans a5, b6.trans a6, b7.trans a7, b8.trans a8⟩

theorem Keeps.refl (a : Mach) : Keeps a a := ⟨rfl, fun _ => .refl _⟩

theorem Keeps.trans {a b c : Mach} (h₁ : Keeps a b) (h₂ : Keeps b c) : Keeps a c :=
  ⟨h₂.cur.trans h₁.cur, fun q => (h₁.req q).trans (h₂.req q)⟩

theorem Keeps.built {a b : Mach} (h : Keeps a b) (ha : a.Built) : b.Built := by
  intro p st
  rw [h.cur]
  exact ha p st

theorem Keeps.at_iff {a b : Mach} (h : Keeps a b) {p : Ptr} {c : Nat} {f : Flow} :
    b.w.At cfg p c f ↔ a.w.At cfg p c f := by
  obtain ⟨h1, h2, -⟩ := h.req p
  simp only [World.At, h1, h2]

/-- The steps that carry no usage condition of their own. -/
def Lbl.Basic : Lbl → Prop
  | .arm _ _ _ | .armTail _ _ | .enqueue _ _ | .waitStream _ | .note _ _ _ _ => False
  | _ => True

/-- The steps that only progress makes. -/
def Lbl.Progress : Lbl → Prop
  | .reap _ _ _ | .handOver _ _ _ | .gpu _ | .store _ _ => True
  | _ => False

/-- The steps of a call that posts on a stream with event sync. -/
def Lbl.Posting : Lbl → Prop
  | .take _ _ | .build _ | .stamp _ _ | .track _ _ _ | .armTail _ _ | .touch _ => True
  | _ => False

/-- Moves by posting steps. -/
abbrev PostMoves (cfg : Config) (Good : Ans → Prop) : Mach → Mach → Prop :=
  Moves fun a b => ∃ l : Lbl, l.Posting ∧ Step cfg Good l a b

theorem keeps_of_step {l : Lbl} {a b : Mach} (hl : l.Progress) (hs : Step cfg Good l a b) : Keeps a b := by
  cases hs with
  | reap hk hp =>
    refine ⟨rfl, fun q => ?_⟩
    simp only [World.complete_mem cfg hp]
    split <;> exact ⟨rfl, rfl, rfl, rfl, rfl, rfl, rfl, rfl⟩
  | @handOver w cur c f p =>
    refine ⟨rfl, fun q => ?_⟩
    obtain ⟨n, v, hq⟩ := World.handOver_mem w c f p q
    rw [hq]
    exact ⟨rfl, rfl, rfl, rfl, rfl, rfl, rfl, rfl⟩
  | @gpu w cur s =>
    refine ⟨rfl, fun q => ?_⟩
    rw [World.gpuStep_mem]
    exact .refl _
  | store => exact ⟨rfl, fun q => .refl _⟩
  | _ => exact hl.elim

/-! ## Progress -/

section Progress
variable (hP : ∀ l a, l.Progress → K l a)
include hP

theorem move_progress {l : Lbl} {a b : Mach} (hl : l.Progress) (hs : Step cfg Good l a b) :
    Moves (Move cfg Good K) a b ∧ Keeps a b := by
  exact ⟨.single ⟨l, hP l a hl, hs⟩, keeps_of_step hl hs⟩

/-- What the GPU does is one step of the machine. -/
theorem moves_gpu {ans : Ans} (hans : Good ans) {g : Gpu} (hg : g ∈ ans.gpu) (w : World) (cur : Option Cur) :
    Moves (Move cfg Good K) ⟨w, cur⟩ ⟨w.gpu g, cur⟩ ∧ Keeps ⟨w, cur⟩ ⟨w.gpu g, cur⟩ ∧ SameCore w (w.gpu g) := by
  cases g with
  | run s =>
    have hstep : Step cfg Good (.gpu s) ⟨w, cur⟩ ⟨w.gpuStep s, cur⟩ := Step.gpu
    obtain ⟨h1, h2⟩ := move_progress hP (show Lbl.Progress (.gpu s) from trivial) hstep
    exact ⟨h1, h2, SameCore.gpuStep w s⟩
  | store c v =>
    have hstep : Step cfg Good (.store c v) ⟨w, cur⟩ ⟨w.setWord v (.lastTriggerId c .tx), cur⟩ := Step.store hans hg
    obtain ⟨h1, h2⟩ := move_progress hP (show Lbl.Progress (.store c v) from trivial) hstep
    exact ⟨h1, h2, SameCore.setWord w v (.lastTriggerId c .tx)⟩

theorem moves_runStreams {ans : Ans} (hans : Good ans) (l : List Gpu) (hl : ∀ g ∈ l, g ∈ ans.gpu) (w : World)
    (cur : Option Cur) :
    Moves (Move cfg Good K) ⟨w, cur⟩ ⟨runStreams w l, cur⟩ ∧ Keeps ⟨w, cur⟩ ⟨runStreams w l, cur⟩ ∧
      SameCore w (runStreams w l) := by
  induction l generalizing w with
  | nil => exact ⟨.refl, .refl _, .refl _⟩
  | cons g rest ih =>
    obtain ⟨h1, h2, h3⟩ := moves_gpu hP hans (hl g List.mem_cons_self) w cur
    obtain ⟨h4, h5, h6⟩ := ih (fun g' hg' => hl g' (List.mem_cons_of_mem g hg')) (w.gpu g)
    exact ⟨h1.trans h4, h2.trans h5, h3.trans h6⟩

variable (hG : Good {})
include hG

theorem follows_streamsRun (a : Mach) :
    Follows cfg Good K a streamsRun (fun _ b => Keeps a b ∧ SameCore a.w b.w) := by
  unfold streamsRun
  refine Follows.answer hG (fun ans hans => ?_)
  obtain ⟨h1, h2⟩ := moves_runStreams hP hans ans.gpu (fun _ hg => hg) a.w a.cur
  exact Follows.update_last h1 rfl h2

/-- Handing the head over is one step of the machine. -/
theorem follows_postHead {a : Mach} {c : Nat} {f : Flow} {p : Ptr} (he : cfg.useEventSync = true)
    (hp : (a.w.clients c).postedStreamReq f = some p) (hid : (a.w.mem p).id ≤ (a.w.clients c).lastTriggerId f)
    (hst : (a.w.mem p).status = .prepared) :
    Follows cfg Good K a (postHead c f p) (fun _ b => Keeps a b) := by
  have heq : postHead c f p = returnCode >>= fun rc =>
      (if rc = 0 then update fun w => (w.accept c .tx p).handOver c f p else pure ()) >>= fun _ => pure rc := by
    funext s
    cases ht : s.tape with
    | nil => simp [postHead, gdsPostSend, returnCode, answer, update, Prog.bind_run, Prog.pure_run, ht]
    | cons ans tape =>
      by_cases hr : ans.rc = 0 <;>
        simp [postHead, gdsPostSend, returnCode, answer, update, Prog.bind_run, Prog.pure_run, ht, hr]
  rw [heq]
  refine Follows.returnCode hG (fun ans _ => ?_)
  refine Follows.bind (Q := fun _ b => Keeps a b) (Follows.ite (fun _ => ?_) (fun _ => .pure (.refl a)))
    (fun _ b hb => .pure hb)
  have hstep : Step cfg Good (.handOver c f p) a ⟨(a.w.accept c .tx p).handOver c f p, a.cur⟩ :=
    Step.handOver he hp hid hst
  obtain ⟨h1, h2⟩ := move_progress hP (show Lbl.Progress (.handOver c f p) from trivial) hstep
  exact Follows.update_last h1 rfl h2

theorem follows_progressPosted (he : cfg.useEventSync = true) (c : Nat) (f : Flow) (fuel : Nat) (a : Mach)
    (ha : a.Built) : Follows cfg Good K a (progressPosted c f fuel) (fun _ b => Keeps a b) := by
  induction fuel generalizing a with
  | zero => exact Follows.stop (fun s hR => ⟨hR.1, ha⟩)
  | succ fuel ih =>
    unfold progressPosted
    refine Follows.client ?_
    cases hp : (a.w.clients c).postedStreamReq f with
    | none => exact .pure (.refl a)
    | some p =>
      refine Follows.bind (follows_streamsRun hP hG a) (fun _ b hb => ?_)
      refine Follows.client (Follows.request ?_)
      refine Follows.ite (fun _ => .pure hb.1) (fun hid => ?_)
      refine Follows.require (fun _ _ _ => trivial) (fun hst => ?_)
      refine Follows.require (fun _ _ _ => trivial) (fun _ => ?_)
      have hp' : (b.w.clients c).postedStreamReq f = some p := by rw [hb.2.posted c]; exact hp
      refine Follows.bind (follows_postHead hP hG he hp' (Nat.le_of_not_lt hid) (of_decide_eq_true hst))
        (fun ret d hd => ?_)
      refine Follows.ite (fun _ => .pure (hb.1.trans hd)) (fun _ => ?_)
      exact (ih d ((hb.1.trans hd).built ha)).conseq (fun _ e he => (hb.1.trans hd).trans he)

theorem follows_progressPostedClients (he : cfg.useEventSync = true) (f : Flow) (cs : List Nat) (a : Mach)
    (ha : a.Built) : Follows cfg Good K a (progressPostedClients f cs) (fun _ b => Keeps a b) := by
  induction cs generalizing a with
  | nil => exact .pure (.refl a)
  | cons c rest ih =>
    unfold progressPostedClients
    refine Follows.world ?_
    refine Follows.bind (follows_progressPosted hP hG he c f _ a ha) (fun ret b hb => ?_)
    refine Follows.ite (fun _ => .pure hb) (fun _ => ?_)
    exact (ih b (hb.built ha)).conseq (fun _ d hd => hb.trans hd)

theorem follows_progressPostedList (f : Flow) (a : Mach) (ha : a.Built) :
    Follows cfg Good K a (progressPostedList cfg f) (fun _ b => Keeps a b) :=
  Follows.ite (fun he => follows_progressPostedClients hP hG he f _ a ha) (fun _ => .pure (.refl a))

omit hP hG in
theorem follows_canPollFrom (c : Nat) (f : Flow) (fuel : Nat) (p : Option Ptr) (n : Nat) (a : Mach)
    (ha : a.Built) : Follows cfg Good K a (canPollFrom cfg c f fuel p n) (fun _ b => b = a) := by
  induction fuel generalizing p n with
  | zero =>
    cases p with
    | none => exact .pure rfl
    | some p => exact Follows.stop (fun s hR => ⟨hR.1, ha⟩)
  | succ fuel ih =>
    cases p with
    | none => exact .pure rfl
    | some p =>
      unfold canPollFrom
      refine Follows.client (Follows.request ?_)
      exact Follows.ite (fun _ => .pure rfl) (fun _ => ih _ _)

omit hP hG in
theorem follows_clientCanPoll (c : Nat) (f : Flow) (a : Mach) (ha : a.Built) :
    Follows cfg Good K a (clientCanPoll cfg c f) (fun _ b => b = a) := by
  unfold clientCanPoll
  refine Follows.ite (fun _ => .pure rfl) (fun _ => ?_)
  exact Follows.world (follows_canPollFrom c f _ _ _ a ha)

omit hG in
/-- The body of the completion loop, on a completion of a good poll. -/
theorem follows_progressCompletion {ans : Ans} (hans : Good ans) (c : Nat) (f : Flow) (k : Nat) (hk : k ∈ ans.picks)
    (a : Mach) : Follows cfg Good K a (progressCompletion cfg c f k) (fun _ b => Keeps a b) := by
  unfold progressCompletion
  refine Follows.world ?_
  cases hwr : (a.w.cq c f)[k]? with
  | none => exact .pure (.refl a)
  | some wr =>
    refine Follows.require (fun hst s _ => ?_) (fun hst => ?_)
    · refine ⟨c, f, wr, List.mem_of_getElem? hwr, ?_⟩
      intro hp
      cases hs : (a.w.mem wr.wrId).status <;> simp_all [State.isPending]
    · have hpend : (a.w.mem wr.wrId).status.isPending := by
        cases hs : (a.w.mem wr.wrId).status <;> simp_all [State.isPending]
      refine Follows.require (fun hb s _ => ?_) (fun hb => ?_)
      · refine ⟨c, f, k, wr, ans, hwr, ?_, hans, hk⟩
        intro htr
        simp only [Bool.or_eq_false_iff, Bool.not_eq_false', Bool.and_eq_true, decide_eq_false_iff_not] at hb
        exact hb.2 (htr hb.1.1 hb.1.2)
      · have htr : a.w.TrackedOk cfg c f wr.wrId := by
          intro he ht
          simpa [he, ht] using hb
        have hstep : Step cfg Good (.reap c f k) a ⟨a.w.complete cfg c f k wr, a.cur⟩ :=
          Step.reap hwr hpend htr hans hk
        obtain ⟨h1, h2⟩ := move_progress hP (show Lbl.Progress (.reap c f k) from trivial) hstep
        exact Follows.update_last h1 rfl h2

theorem follows_progressCompletions {ans : Ans} (hans : Good ans) (c : Nat) (f : Flow) (ks : List Nat)
    (hks : ∀ k ∈ ks, k ∈ ans.picks) (a : Mach) :
    Follows cfg Good K a (progressCompletions cfg c f ks) (fun _ b => Keeps a b) := by
  induction ks generalizing a with
  | nil => exact .pure (.refl a)
  | cons k rest ih =>
    unfold progressCompletions
    refine Follows.bind (follows_progressCompletion hP hans c f k (hks k List.mem_cons_self) a)
      (fun _ b hb => ?_)
    refine Follows.bind (follows_streamsRun hP hG b) (fun _ d hd => ?_)
    exact (ih (fun j hj => hks j (List.mem_cons_of_mem k hj)) d).conseq
      (fun _ e he => (hb.trans hd.1).trans he)

theorem follows_pollClient (f : Flow) (c : Nat) (a : Mach) (ha : a.Built) :
    Follows cfg Good K a (pollClient cfg f c) (fun _ b => Keeps a b) := by
  unfold pollClient
  refine Follows.bind (follows_clientCanPoll c f a ha) (fun n b hb => ?_)
  subst hb
  refine Follows.ite (fun _ => .pure (.refl b)) (fun _ => ?_)
  refine Follows.answer hG (fun ans hans => ?_)
  obtain ⟨h1, h2, -⟩ := moves_runStreams hP hans ans.gpu (fun _ hg => hg) b.w b.cur
  refine Follows.update h1 rfl ?_
  refine Follows.ite (fun _ => .pure h2) (fun _ => ?_)
  refine Follows.bind (follows_progressCompletions hP hG hans c f _ (fun k hk => List.mem_of_mem_take hk) _)
    (fun _ d hd => .pure (h2.trans hd))

theorem follows_pollClients (f : Flow) (cs : List Nat) (a : Mach) (ha : a.Built) :
    Follows cfg Good K a (pollClients cfg f cs) (fun _ b => Keeps a b) := by
  induction cs generalizing a with
  | nil => exact .pure (.refl a)
  | cons c rest ih =>
    unfold pollClients
    refine Follows.bind (follows_pollClient hP hG f c a ha) (fun ret b hb => ?_)
    refine Follows.ite (fun _ => .pure hb) (fun _ => ?_)
    exact (ih b (hb.built ha)).conseq (fun _ d hd => hb.trans hd)

/-- `mp_progress_single_flow`: whatever it does, the requests stay what they are. -/
theorem follows_mpProgressSingleFlow (f : Flow) (a : Mach) (ha : a.Built) :
    Follows cfg Good K a (mpProgressSingleFlow cfg f) (fun _ b => Keeps a b) := by
  unfold mpProgressSingleFlow
  refine Follows.bind (follows_progressPostedList hP hG f a ha) (fun _ b hb => ?_)
  exact (follows_pollClients hP hG f _ b (hb.built ha)).conseq (fun _ d hd => hb.trans hd)

omit hP in
theorem Follows.timeout {β : Type} {a : Mach} {f : Bool → M β} {T : β → Mach → Prop}
    (h : ∀ late, Follows cfg Good K a (f late) T) : Follows cfg Good K a (LibMp.timeout >>= f) T := by
  unfold LibMp.timeout
  refine Follows.bind (Q := fun _ b => b = a) (Follows.answer hG (fun ans _ => .pure rfl)) (fun late b hb => ?_)
  rw [hb]
  exact h late

omit hP in
theorem Follows.mpCheckGpuError {β : Type} {a : Mach} {f : Int → M β} {T : β → Mach → Prop}
    (h : ∀ rc, Follows cfg Good K a (f rc) T) : Follows cfg Good K a (LibMp.mpCheckGpuError >>= f) T := by
  unfold LibMp.mpCheckGpuError
  refine Follows.bind (Q := fun _ b => b = a) (Follows.returnCode hG (fun ans _ => .pure rfl)) (fun rc b hb => ?_)
  rw [hb]
  exact h rc

/-! ## Waiting and counting, by progress only -/

theorem follows_spin (p : Ptr) (fuel : Nat) (a : Mach) (ha : a.Built) :
    Follows cfg Good K a (spin cfg p fuel) (fun _ b => Keeps a b) := by
  induction fuel generalizing a with
  | zero => exact Follows.stop (fun s hR => ⟨hR.1, ha⟩)
  | succ fuel ih =>
    unfold spin
    refine Follows.request ?_
    refine Follows.ite (fun _ => .pure (.refl a)) (fun _ => ?_)
    refine Follows.bind (follows_mpProgressSingleFlow hP hG .tx a ha) (fun ret b hb => ?_)
    refine Follows.ite (fun _ => .pure hb) (fun _ => ?_)
    refine Follows.bind (follows_mpProgressSingleFlow hP hG .rx b (hb.built ha)) (fun ret d hd => ?_)
    have had := hb.trans hd
    refine Follows.ite (fun _ => .pure had) (fun _ => ?_)
    have hrec := (ih d (had.built ha)).conseq (fun _ e he => had.trans he)
    refine Follows.timeout hG (fun late => ?_)
    refine Follows.ite (fun _ => ?_) (fun _ => hrec)
    exact Follows.mpCheckGpuError hG (fun rc => Follows.ite (fun _ => .pure had) (fun _ => hrec))

theorem follows_spinAll (ps : List Ptr) (a : Mach) (ha : a.Built) :
    Follows cfg Good K a (spinAll cfg ps) (fun _ b => Keeps a b) := by
  induction ps generalizing a with
  | nil => exact .pure (.refl a)
  | cons p rest ih =>
    unfold spinAll
    refine Follows.bind (Q := fun _ b => b = a) (Sim.get (fun b s _ hb => hb)) (fun s b hb => ?_)
    rw [hb]
    refine Follows.bind (follows_spin hP hG p _ a ha) (fun ret d hd => ?_)
    refine Follows.ite (fun _ => .pure hd) (fun _ => ?_)
    exact (ih d (hd.built ha)).conseq (fun _ e he => hd.trans he)

theorem follows_progressAllFrom (n : Int) (ps : List Ptr) (a : Mach) (ha : a.Built) :
    Follows cfg Good K a (progressAllFrom cfg n ps) (fun _ b => Keeps a b) := by
  induction ps generalizing a n with
  | nil => exact .pure (.refl a)
  | cons p rest ih =>
    unfold progressAllFrom
    refine Follows.request ?_
    refine Follows.ite (fun _ => ih _ a ha) (fun _ => ?_)
    refine Follows.bind (follows_mpProgressSingleFlow hP hG .tx a ha) (fun ret b hb => ?_)
    refine Follows.ite (fun _ => .pure hb) (fun _ => ?_)
    refine Follows.bind (follows_mpProgressSingleFlow hP hG .rx b (hb.built ha)) (fun ret d hd => ?_)
    have had := hb.trans hd
    refine Follows.ite (fun _ => .pure had) (fun _ => ?_)
    exact Follows.request ((ih _ d (had.built ha)).conseq (fun _ e he => had.trans he))

end Progress

/-! ## The calls to the outside -/

/-- The moves of progress. -/
abbrev ProgressMoves (cfg : Config) : Mach → Mach → Prop := Moves (Move cfg (fun _ => True) fun l _ => l.Progress)

/-- Whatever `mp_progress_single_flow` returned, it has made moves of progress. -/
theorem mpProgressSingleFlow_moves {f : Flow} {s s' : Sys} {ret : Int}
    (h : mpProgressSingleFlow cfg f s = (.ok ret, s')) : ProgressMoves cfg ⟨s.w, none⟩ ⟨s'.w, none⟩ := by
  have hf : Follows cfg (fun _ => True) (fun l _ => l.Progress) ⟨s.w, none⟩ (mpProgressSingleFlow cfg f)
      (fun _ b => Keeps ⟨s.w, none⟩ b) :=
    follows_mpProgressSingleFlow (fun _ _ hl => hl) trivial f ⟨s.w, none⟩ (by intro p st; simp)
  obtain ⟨⟨w, cur⟩, hm, hR, hk⟩ := hf.ok ⟨rfl, fun _ _ => trivial⟩ h
  obtain rfl : w = s'.w := hR.1
  obtain rfl : cur = none := hk.cur
  exact hm

theorem Lbl.Progress.basic {l : Lbl} (h : l.Progress) : l.Basic := by
  cases l <;> trivial

/-- What is allowed to the basic steps is allowed to progress. -/
theorem progress_of_basic (hK : ∀ l a, l.Basic → K l a) : ∀ l a, l.Progress → K l a := fun l a h => hK l a h.basic

section Basic
variable (hK : ∀ l a, l.Basic → K l a) (hG : Good {})
include hK hG

omit hK hG in
theorem Follows.clientOf {β : Type} {a : Mach} {peer : Nat} {f : Nat → M β} {T : β → Mach → Prop}
    (h : ∀ c, cfg.clientIndex peer = some c → Follows cfg Good K a (f c) T) :
    Follows cfg Good K a (LibMp.clientOf cfg peer >>= f) T := by
  unfold LibMp.clientOf
  cases hc : cfg.clientIndex peer with
  | none => exact Follows.bind (Q := fun _ _ => False) (Follows.stop (fun _ _ => trivial)) (fun _ _ hf => hf.elim)
  | some c =>
    refine Follows.bind (Q := fun x b => x = c ∧ b = a) (.pure ⟨rfl, rfl⟩) ?_
    rintro x b ⟨rfl, rfl⟩
    exact h x hc

omit hK in
/-- A call that does `g` when it returns 0, and nothing otherwise. -/
theorem follows_call {a b : Mach} {g : World → World} (hm : Moves (Move cfg Good K) a b) (hb : b.w = g a.w) :
    Follows cfg Good K a (do
        let rc ← returnCode
        if rc = 0 then update g
        return rc)
      (fun rc d => (rc = 0 ∧ d = b ∨ rc ≠ 0 ∧ d = a) ∧ ∃ ans, Good ans ∧ ans.rc = rc) := by
  refine Follows.returnCode hG (fun ans hans => ?_)
  dsimp only
  refine Follows.ite (fun h0 => ?_) (fun h0 => .pure ⟨.inr ⟨h0, rfl⟩, ans, hans, rfl⟩)
  exact Follows.update hm hb (.pure ⟨.inl ⟨h0, rfl⟩, ans, hans, rfl⟩)

omit hG in
theorem moves_accept {a : Mach} {p : Ptr} {st : State} {c : Nat} {f : Flow} (hc : a.cur = some ⟨p, st, true⟩)
    (hst : st.isPending) (hat : a.w.At cfg p c f) :
    Moves (Move cfg Good K) a ⟨a.w.accept c f p, none⟩ := by
  refine .single ⟨.accept c f p, hK _ _ trivial, ?_⟩
  rw [show a = ⟨a.w, some ⟨p, st, true⟩⟩ by rw [← hc]]
  exact Step.accept hst hat

/-- The HCA takes the work request of the request the call holds, or not. -/
theorem follows_gdsPostSend {a : Mach} {p : Ptr} {st : State} {c : Nat} (hc : a.cur = some ⟨p, st, true⟩)
    (hst : st.isPending) (hat : a.w.At cfg p c .tx) :
    Follows cfg Good K a (gdsPostSend c p) (fun rc d =>
      (rc = 0 ∧ d = ⟨a.w.accept c .tx p, none⟩ ∨ rc ≠ 0 ∧ d = a) ∧ ∃ ans, Good ans ∧ ans.rc = rc) :=
  follows_call hG (moves_accept hK hc hst hat) rfl

theorem follows_gdsPostRecv {a : Mach} {p : Ptr} {st : State} {c : Nat} (hc : a.cur = some ⟨p, st, true⟩)
    (hst : st.isPending) (hat : a.w.At cfg p c .rx) :
    Follows cfg Good K a (gdsPostRecv c p) (fun rc d =>
      (rc = 0 ∧ d = ⟨a.w.accept c .rx p, none⟩ ∨ rc ≠ 0 ∧ d = a) ∧ ∃ ans, Good ans ∧ ans.rc = rc) :=
  follows_call hG (moves_accept hK hc hst hat) rfl

theorem follows_gdsPrepareWaitCq (a : Mach) (c : Nat) (f : Flow) (p : Ptr) :
    Follows cfg Good K a (gdsPrepareWaitCq c f p) (fun rc d =>
      (rc = 0 ∧ d = ⟨a.w.fillWait c f p, a.cur⟩ ∨ rc ≠ 0 ∧ d = a) ∧ ∃ ans, Good ans ∧ ans.rc = rc) :=
  follows_call hG (.single ⟨.fill p, hK _ _ trivial, Step.fill⟩) rfl

theorem follows_gdsPostWaitCq (a : Mach) (p : Ptr) :
    Follows cfg Good K a (gdsPostWaitCq p) (fun rc d =>
      d = ⟨a.w.give p, a.cur⟩ ∧ ∃ ans, Good ans ∧ ans.rc = rc) := by
  unfold gdsPostWaitCq
  refine Follows.update (b := ⟨a.w.give p, a.cur⟩) (.single ⟨.give p, hK _ _ trivial, Step.give⟩) rfl ?_
  exact Follows.answer hG (fun ans hans => .pure ⟨rfl, ans, hans, rfl⟩)

/-- What the machine asks of the operations a call enqueues: it waits for ids of
triggered requests only, and leaves `last_tracked_id` to the CPU. -/
def EnqueueOk (cfg : Config) (w : World) (ops : List StreamOp) : Prop :=
  (∀ c f v, .write (.lastTrackedId c f) v ∉ ops) ∧
  (∀ c f v cond, .wait (.lastTrackedId c f) v cond ∈ ops → cond = .geq ∧
    ∃ p, w.At cfg p c f ∧ (w.mem p).owner ≠ none ∧ (w.mem p).id = v ∧ (w.mem p).trigger = true)

omit hK in
theorem follows_gdsStreamPostDescriptors (a : Mach) (s : Stream) (descs : List StreamOp)
    (hE : K (.enqueue s descs) a) (hops : EnqueueOk cfg a.w descs) :
    Follows cfg Good K a (gdsStreamPostDescriptors s descs) (fun rc d =>
      (rc = 0 ∧ d = ⟨a.w.enqueue s descs, a.cur⟩ ∨ rc ≠ 0 ∧ d = a) ∧ ∃ ans, Good ans ∧ ans.rc = rc) :=
  follows_call hG (.single ⟨.enqueue s descs, hE, Step.enqueue hops.1 hops.2⟩) rfl

/-! ## Posting with retries -/

/-- A post with return code `ret` went from `a` to `b`: the request has left
the hands of the call exactly if it succeeded. -/
structure PostOf (a b : Mach) (ret : Int) : Prop where
  cur : ret = 0 ∧ b.cur = none ∨ ret ≠ 0 ∧ b.cur = a.cur
  req : ∀ q, (a.w.mem q).SameOp (b.w.mem q)

omit hK hG in
theorem PostOf.built {a b : Mach} {ret : Int} (h : PostOf a b ret) (ha : a.Built) : b.Built := by
  intro p st
  rcases h.cur with ⟨-, h⟩ | ⟨-, h⟩
  · rw [h]; simp
  · rw [h]; exact ha p st

omit hK hG in
theorem built_of_cur {a : Mach} {p : Ptr} {st : State} (hc : a.cur = some ⟨p, st, true⟩) : a.Built := by
  intro q st' hq
  rw [hc] at hq
  cases hq

theorem follows_postRetry {post : M Int} {p : Ptr} {st : State} {c : Nat} {f : Flow}
    (hpost : ∀ a : Mach, a.cur = some ⟨p, st, true⟩ → a.w.At cfg p c f → Follows cfg Good K a post (fun rc d =>
      (rc = 0 ∧ d = ⟨a.w.accept c f p, none⟩ ∨ rc ≠ 0 ∧ d = a) ∧ ∃ ans, Good ans ∧ ans.rc = rc))
    (g : Flow) (tries : Nat) (a : Mach) (hc : a.cur = some ⟨p, st, true⟩) (hat : a.w.At cfg p c f) :
    Follows cfg Good K a (postRetry cfg post g tries) (fun ret b => PostOf a b ret) := by
  induction tries generalizing a with
  | zero => exact .pure ⟨.inr ⟨by decide, rfl⟩, fun _ => .refl _⟩
  | succ tries ih =>
    unfold postRetry
    refine Follows.bind (hpost a hc hat) ?_
    rintro ret b ⟨hb, -⟩
    refine Follows.ite (fun hret => ?_) (fun hret => ?_)
    · -- `ENOMEM`: the request is still in the hands of the call while it progresses
      have hne : ret ≠ 0 := by rw [hret]; decide
      obtain rfl : b = a := (hb.resolve_left (fun h => hne h.1)).2
      refine Follows.bind (follows_mpProgressSingleFlow (progress_of_basic hK) hG g b (built_of_cur hc))
        (fun rp d hd => ?_)
      refine Follows.ite (fun _ => .pure ⟨.inr ⟨hne, hd.cur⟩, hd.req⟩) (fun _ => ?_)
      refine (ih d (by rw [hd.cur]; exact hc) (hd.at_iff.mpr hat)).conseq (fun ret' e he => ?_)
      refine ⟨?_, fun q => (hd.req q).trans (he.req q)⟩
      rw [← hd.cur]
      exact he.cur
    · rcases hb with ⟨h0, rfl⟩ | ⟨h0, rfl⟩
      · exact .pure ⟨.inl ⟨h0, rfl⟩, fun _ => .refl _⟩
      · exact .pure ⟨.inr ⟨h0, rfl⟩, fun _ => .refl _⟩

theorem follows_mpPostSend {p : Ptr} {st : State} {c : Nat} (hst : st.isPending) (a : Mach)
    (hc : a.cur = some ⟨p, st, true⟩) (hat : a.w.At cfg p c .tx) :
    Follows cfg Good K a (mpPostSend cfg c p) (fun ret b => PostOf a b ret) :=
  follows_postRetry hK hG (fun _ hc hat => follows_gdsPostSend hK hG hc hst hat) _ _ a hc hat

theorem follows_mpPostRecv {p : Ptr} {st : State} {c : Nat} (hst : st.isPending) (a : Mach)
    (hc : a.cur = some ⟨p, st, true⟩) (hat : a.w.At cfg p c .rx) :
    Follows cfg Good K a (mpPostRecv cfg c p) (fun ret b => PostOf a b ret) :=
  follows_postRetry hK hG (fun _ hc hat => follows_gdsPostRecv hK hG hc hst hat) _ _ a hc hat

/-! ## Waiting on the CPU -/

theorem follows_postWaits (ps : List Ptr) (a : Mach) (ha : a.cur = none) :
    Follows cfg Good K a (postWaits cfg ps) (fun _ b => b.cur = none) := by
  induction ps generalizing a with
  | nil => exact .pure ha
  | cons p rest ih =>
    unfold postWaits
    refine Follows.request ?_
    refine Follows.require (fun _ _ _ => trivial) (fun _ => ?_)
    refine Follows.ite (fun _ => .pure ha) (fun _ => ?_)
    dsimp only
    refine Follows.ite (fun hst => ?_) (fun _ => ih a ha)
    refine Follows.clientOf (fun c _ => ?_)
    refine Follows.bind (follows_gdsPostWaitCq hK hG a p) ?_
    rintro ret b ⟨rfl, -⟩
    refine Follows.ite (fun _ => .pure ha) (fun _ => ?_)
    refine Follows.update (b := ⟨(a.w.give p).setReq p fun r => { r with stream := none, status := .pending }, none⟩)
      (.single ⟨.waitCpu p, hK _ _ trivial, ?_⟩) rfl (ih _ rfl)
    rw [ha]
    exact Step.waitCpu hst

omit hG in
theorem follows_releaseAll (ret : Int) (ps : List Ptr) (a : Mach) (ha : a.cur = none) :
    Follows cfg Good K a (releaseAll ret ps) (fun _ b => b.cur = none) := by
  induction ps generalizing a ret with
  | nil => exact .pure ha
  | cons p rest ih =>
    unfold releaseAll
    refine Follows.request ?_
    refine Follows.ite (fun hst => ?_) (fun _ => ih _ a ha)
    refine Follows.update (b := ⟨a.w.release p, none⟩) (.single ⟨.release p, hK _ _ trivial, ?_⟩) rfl (ih _ _ rfl)
    rw [show a = ⟨a.w, none⟩ by rw [← ha]]
    exact Step.release hst

theorem follows_mpWaitAll (ps : List Ptr) (a : Mach) (ha : a.cur = none) :
    Follows cfg Good K a (mpWaitAll cfg ps) (fun _ b => b.cur = none) := by
  unfold mpWaitAll
  refine Follows.bind (follows_postWaits hK hG ps a ha) (fun ret b hb => ?_)
  refine Follows.ite (fun _ => .pure hb) (fun _ => ?_)
  refine Follows.bind (follows_spinAll (progress_of_basic hK) hG ps b (by intro p st; rw [hb]; simp))
    (fun ret d hd => ?_)
  have hd' : d.cur = none := by rw [hd.cur]; exact hb
  refine Follows.ite (fun _ => .pure hd') (fun _ => ?_)
  exact follows_releaseAll hK 0 ps d hd'

end Basic

end LibMp
