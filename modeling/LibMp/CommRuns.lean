import Mathlib.Data.Set.Card
import LibMp.CommSteps
import LibMp.Recorded

/- Runs of a rank that uses COMM without event sync, when the outside makes no
   errors: what becomes of the requests in its table, and how many requests are
   in use after a flush.

   `Did` says what each call that comes back has done to the requests and the
   table. The rest follows from that alone: the table is sound as long as no
   request in it is waited for behind its back (`TableOk`), and what stays in use
   across a flush are the puts of `comm_send_ready`, which nothing records. -/
namespace LibMp
variable {cc : CommConfig}

/-! ## The runs -/

/-- The calls of COMM on requests. -/
inductive CommOp where
  | irecv (buf size : Nat) (type : MpiType) (creg srcRank : Nat)
  | isend (buf size : Nat) (type : MpiType) (creg destRank : Nat)
  | isendOnStream (buf size : Nat) (type : MpiType) (creg destRank : Nat) (st : Stream)
  | sendReady (rank : Nat)
  | sendReadyOnStream (rank : Nat) (st : Stream)
  | waitReady (rank : Nat)
  | wait (req : Ptr)
  | waitAll (reqs : List Ptr)
  | progress
  | flush

namespace CommOp

/-- The program of a call: its return code, and the request it stores. -/
def run (cc : CommConfig) : CommOp → CM (Int × Option Ptr)
  | irecv buf size type creg srcRank => commIrecv cc buf size type creg srcRank
  | isend buf size type creg destRank => commIsend cc buf size type creg destRank
  | isendOnStream buf size type creg destRank st => commIsendOnStream cc buf size type creg destRank st
  | sendReady rank => commSendReady cc rank
  | sendReadyOnStream rank st => commSendReadyOnStream cc rank st
  | waitReady rank => do return (← commWaitReady cc rank, none)
  | wait req => do return (← commWait cc req, none)
  | waitAll reqs => do return (← commWaitAll cc reqs, none)
  | progress => do return (← commProgress cc, none)
  | flush => do return (← commFlush cc, none)

/-- The requests of `comm_wait` and `comm_wait_all`. -/
def handles : CommOp → Option (List Ptr)
  | wait req => some [req]
  | waitAll reqs => some reqs
  | _ => none

def isSendReady : CommOp → Bool
  | sendReady _ => true
  | _ => false

end CommOp

/-- Calls that come back, each made in a state that satisfies `ok`, with
answers that are all successes. -/
inductive CommRun (cc : CommConfig) (ok : CommOp → Comm → Prop) (c₀ : Comm) : List CommOp → Comm → Prop where
  | start : CommRun cc ok c₀ [] c₀
  | call {ops c op tape arrivals x c'} : CommRun cc ok c₀ ops c → ok op c → Succeeds tape →
      op.run cc (c.given tape arrivals) = (.ok x, c') → CommRun cc ok c₀ (ops ++ [op]) c'

/-! ## What a call has done -/

/-- What a call that came back has done to the requests and the table. -/
inductive Did (cfg : Config) : CommOp → Comm → Comm → Prop where
  | tracked {op c c' p d f fl} : op.isSendReady = false → op.handles = none →
      NewRequest cfg c.sys.w c'.sys.w p d f fl → nowait fl = false →
      c'.reqs = c.reqs ++ [⟨p, (c'.sys.w.mem p).peer, (c'.sys.w.mem p).id⟩] → Did cfg op c c'
  | untracked {rank c c' p d f fl} : NewRequest cfg c.sys.w c'.sys.w p d f fl → nowait fl = true →
      c'.reqs = c.reqs → Did cfg (.sendReady rank) c c'
  | progressed {op c c'} : op.isSendReady = false → op.handles = none →
      ProgressMoves cfg ⟨c.sys.w, none⟩ ⟨c'.sys.w, none⟩ → c'.reqs = c.reqs → Did cfg op c c'
  | waited {op ps c c' tape} : op.handles = some ps → mpWaitAll cfg ps ⟨c.sys.w, tape⟩ = (.ok 0, c'.sys) →
      c'.reqs = c.reqs → Did cfg op c c'
  | flushed {c c' tape ret} : Succeeds tape → mpWaitAll cfg (entries c.reqs) ⟨c.sys.w, tape⟩ = (.ok ret, c'.sys) →
      c'.reqs = [] → Did cfg .flush c c'

/-- What the posting calls do first leaves the requests as they are. -/
theorem commPrelude_did {size creg rank : Nat} {type : MpiType} {x : Nat × Nat × Reg} {c c' : Comm}
    (ht : Succeeds c.sys.tape) (h : commPrelude cc size type creg rank c = (.ok x, c')) :
    c'.sys.w = c.sys.w ∧ Succeeds c'.sys.tape ∧ c'.reqs = c.reqs := by
  obtain ⟨-, -, y, hy, rfl⟩ := (Prog.wp_ok h).mp (commPrelude_spec ..)
  exact ⟨hy.world, hy.succeeds ht, rfl⟩

/-- The posting calls with a table entry. -/
theorem commPost_did {size creg rank : Nat} {type : MpiType} {post : Int → Nat → Reg → M (Int × Option Ptr)}
    (hpost : ∀ n peer reg {w : World} {tape : List Ans} {x : Int × Option Ptr} {s' : Sys}, Succeeds tape →
      post n peer reg ⟨w, tape⟩ = (.ok x, s') → ∃ p d f, x = (0, some p) ∧ NewRequest cc.mp w s'.w p d f 0)
    {op : CommOp} (hop : op.isSendReady = false) (hhandles : op.handles = none) {x : Int × Option Ptr} {c c' : Comm}
    (ht : Succeeds c.sys.tape) (h : commPost cc size type creg rank post c = (.ok x, c')) : Did cc.mp op c c' := by
  unfold commPost at h
  obtain ⟨⟨nbytes, peer, reg⟩, c₁, h₁, h₂⟩ := Prog.bind_eq_ok h
  obtain ⟨hw, ht₁, hreqs⟩ := commPrelude_did ht h₁
  obtain ⟨y, s', hy, h₄⟩ := mpCall_bind_ok h₂
  obtain ⟨p, d, f, rfl, hnew⟩ := hpost _ _ _ ht₁ hy
  rw [hw] at hnew
  obtain ⟨_, c₃, h₅, h₆⟩ := Prog.bind_eq_ok h₄
  obtain ⟨-, rfl⟩ := (Prog.wp_ok h₅).mp (commTrackRequest_spec _)
  cases h₆
  exact .tracked hop hhandles hnew rfl (by rw [hreqs])

theorem mpPutInline_waitable : nowait mpPutInline = false := rfl

theorem mpPutNowait_not_waitable : nowait (mpPutInline ||| mpPutNowait) = true := rfl

/-- `comm_send_ready_on_stream` records its put. -/
theorem commSendReadyOnStream_did {rank : Nat} {st : Stream} {x : Int × Option Ptr} {c c' : Comm}
    (ht : Succeeds c.sys.tape)
    (h : commSendReadyOnStream cc rank st c = (.ok x, c')) : Did cc.mp (.sendReadyOnStream rank st) c c' := by
  unfold commSendReadyOnStream at h
  obtain ⟨-, h₂⟩ := commMpiRankToPeer_bind_ok h
  obtain ⟨⟨result, req⟩, y, hy, h₄⟩ := mpCall_bind_ok h₂
  obtain ⟨h0, h₆⟩ := check_bind_ok h₄
  obtain ⟨p, d, hx, hnew⟩ := mpIputOnStream_new ht mpPutInline_waitable hy h0
  cases hx
  obtain ⟨_, c₄, h₇, h₈⟩ := Prog.bind_eq_ok h₆
  obtain ⟨-, rfl⟩ := (Prog.wp_ok h₇).mp (commTrackRequest_spec _)
  cases h₈
  exact .tracked rfl rfl hnew mpPutInline_waitable rfl

/-- `comm_send_ready` does not. -/
theorem commSendReady_did {rank : Nat} {x : Int × Option Ptr} {c c' : Comm} (ht : Succeeds c.sys.tape)
    (h : commSendReady cc rank c = (.ok x, c')) : Did cc.mp (.sendReady rank) c c' := by
  unfold commSendReady at h
  obtain ⟨-, h₂⟩ := commMpiRankToPeer_bind_ok h
  obtain ⟨⟨result, req⟩, y, hy, h₄⟩ := mpCall_bind_ok h₂
  obtain ⟨h0, h₆⟩ := check_bind_ok h₄
  obtain ⟨p, d, hx, hnew⟩ := mpIput_new ht mpPutNowait_not_waitable hy h0
  cases hx
  cases h₆
  exact .untracked hnew mpPutNowait_not_waitable rfl

/-- Whatever `mp_progress_all` returned, it has made moves of progress. -/
theorem mpProgressAll_moves {cfg : Config} {ps : List Ptr} {s s' : Sys} {ret : Int}
    (h : mpProgressAll cfg ps s = (.ok ret, s')) : ProgressMoves cfg ⟨s.w, none⟩ ⟨s'.w, none⟩ := by
  have hf : Follows cfg (fun _ => True) (fun l _ => l.Progress) ⟨s.w, none⟩ (mpProgressAll cfg ps)
      (fun _ b => Keeps ⟨s.w, none⟩ b) :=
    follows_progressAllFrom (fun _ _ hl => hl) trivial 0 ps ⟨s.w, none⟩ (by intro p st; simp)
  obtain ⟨⟨w, cur⟩, hm, hR, hk⟩ := hf.ok ⟨rfl, fun _ _ => trivial⟩ h
  obtain rfl : w = s'.w := hR.1
  obtain rfl : cur = none := hk.cur
  exact hm

theorem commProgress_did {ret : Int} {c c' : Comm} (h : commProgress cc c = (.ok ret, c')) :
    ProgressMoves cc.mp ⟨c.sys.w, none⟩ ⟨c'.sys.w, none⟩ ∧ c'.reqs = c.reqs := by
  unfold commProgress at h
  obtain ⟨s, c₁, h₁, h₂⟩ := Prog.bind_eq_ok h
  cases h₁
  obtain ⟨-, h₄⟩ := require_bind_ok h₂
  obtain ⟨y, hy, rfl⟩ := mpCall_ok h₄
  exact ⟨mpProgressAll_moves hy, rfl⟩

/-- What happens to a rank in `comm_wait_ready` as long as its word is not there. -/
inductive Waiting (cc : CommConfig) (rank : Nat) (c : Comm) : Comm → Prop where
  /-- words arrive in `ready_table` -/
  | arrives {a rest} : c.arrivals = a :: rest →
      Waiting cc rank c { c with ready := a.foldl (fun t x => t.arrive x.1 x.2) c.ready, arrivals := rest }
  /-- it progresses -/
  | polls {ret c'} : c.ready.notReady rank = true → commProgress cc c = (.ok ret, c') → Waiting cc rank c c'

theorem look_waits (cc : CommConfig) (rank : Nat) {t : ReadyTables} {c c' : Comm} (h : look c = (.ok t, c')) :
    t = c'.ready ∧ Moves (Waiting cc rank) c c' := by
  unfold look at h
  split at h
  · cases h
    exact ⟨rfl, .refl⟩
  · rename_i a rest ha
    cases h
    exact ⟨rfl, .single (.arrives ha)⟩

/-- The loop ends when the table is ready. -/
theorem waitReadyLoop_waits {rank : Nat} (fuel cnt : Nat) {u : Unit} {c c' : Comm}
    (h : waitReadyLoop cc rank fuel cnt c = (.ok u, c')) :
    Moves (Waiting cc rank) c c' ∧ c'.ready.notReady rank = false := by
  induction fuel generalizing cnt c with
  | zero => cases h
  | succ fuel ih =>
    unfold waitReadyLoop at h
    obtain ⟨t, c₁, h₁, h₂⟩ := Prog.bind_eq_ok h
    obtain ⟨rfl, hlook⟩ := look_waits cc rank h₁
    split at h₂
    · rename_i hnot
      split at h₂
      · obtain ⟨_, c₂, h₃, h₄⟩ := Prog.bind_eq_ok h₂
        obtain ⟨hm, hready⟩ := ih 0 h₄
        exact ⟨hlook.trans (.head (.polls hnot h₃) hm), hready⟩
      · obtain ⟨hm, hready⟩ := ih _ h₂
        exact ⟨hlook.trans hm, hready⟩
    · rename_i hready
      cases h₂
      exact ⟨hlook, by simpa using hready⟩

/-- `comm_wait_ready` takes its value in the turn in which the table is ready. -/
theorem commWaitReady_waits {rank : Nat} {ret : Int} {c c' : Comm} (h : commWaitReady cc rank c = (.ok ret, c')) :
    ∃ d, Moves (Waiting cc rank) c d ∧ d.ready.notReady rank = false ∧
      c' = { d with ready := d.ready.nextExpected rank } := by
  unfold commWaitReady at h
  obtain ⟨-, h₂⟩ := commMpiRankToPeer_bind_ok h
  obtain ⟨_, c₂, h₃, h₄⟩ := Prog.bind_eq_ok h₂
  cases h₃
  obtain ⟨_, c₃, h₅, h₆⟩ := Prog.bind_eq_ok h₄
  obtain ⟨hm, hready⟩ := waitReadyLoop_waits _ _ h₅
  cases h₆
  exact ⟨c₃, hm, hready, rfl⟩

/-- It makes no steps but those of `comm_progress`. -/
theorem commWaitReady_did {rank : Nat} {ret : Int} {c c' : Comm} (h : commWaitReady cc rank c = (.ok ret, c')) :
    ProgressMoves cc.mp ⟨c.sys.w, none⟩ ⟨c'.sys.w, none⟩ ∧ c'.reqs = c.reqs := by
  obtain ⟨d, hm, -, rfl⟩ := commWaitReady_waits h
  show ProgressMoves cc.mp ⟨c.sys.w, none⟩ ⟨d.sys.w, none⟩ ∧ d.reqs = c.reqs
  refine Moves.inv (I := fun e : Comm => ProgressMoves cc.mp ⟨c.sys.w, none⟩ ⟨e.sys.w, none⟩ ∧ e.reqs = c.reqs) ?_ hm
    ⟨.refl, rfl⟩
  rintro a b ⟨hmoves, hreqs⟩ (_ | ⟨-, hp⟩)
  · exact ⟨hmoves, hreqs⟩
  · obtain ⟨hmore, hsame⟩ := commProgress_did hp
    exact ⟨hmoves.trans hmore, hsame.trans hreqs⟩

theorem commWaitAll_did {ps : List Ptr} {ret : Int} {c c' : Comm} (h : commWaitAll cc ps c = (.ok ret, c')) :
    mpWaitAll cc.mp ps c.sys = (.ok 0, c'.sys) ∧ c'.reqs = c.reqs := by
  unfold commWaitAll at h
  obtain ⟨result, y, hy, h₂⟩ := mpCall_bind_ok h
  obtain ⟨rfl, h₄⟩ := check_bind_ok h₂
  cases h₄
  exact ⟨hy, rfl⟩

/-- A flush of an empty table is a wait for nothing. -/
theorem commFlush_did {ret : Int} {c c' : Comm} (h : commFlush cc c = (.ok ret, c')) :
    mpWaitAll cc.mp (entries c.reqs) c.sys = (.ok ret, c'.sys) ∧ c'.reqs = [] := by
  unfold commFlush at h
  obtain ⟨s, c₁, h₁, h₂⟩ := Prog.bind_eq_ok h
  cases h₁
  split at h₂
  · rename_i hnil
    cases h₂
    rw [hnil]
    exact ⟨rfl, rfl⟩
  · obtain ⟨-, h₄⟩ := require_bind_ok h₂
    obtain ⟨r, y, hy, h₆⟩ := mpCall_bind_ok h₄
    cases h₆
    exact ⟨hy, rfl⟩

/-- What a call has done does not depend on what it got from outside. -/
theorem Did.of_given {cfg : Config} {op : CommOp} {c c' : Comm} {tape : List Ans} {arrivals : List (List (Nat × Nat))}
    (h : Did cfg op (c.given tape arrivals) c') : Did cfg op c c' := by
  cases h with
  | tracked h₁ h₂ h₃ h₄ h₅ => exact .tracked h₁ h₂ h₃ h₄ h₅
  | untracked h₁ h₂ h₃ => exact .untracked h₁ h₂ h₃
  | progressed h₁ h₂ h₃ h₄ => exact .progressed h₁ h₂ h₃ h₄
  | waited h₁ h₂ h₃ => exact .waited h₁ h₂ h₃
  | flushed h₁ h₂ h₃ => exact .flushed h₁ h₂ h₃

/-- Every call that comes back has done one of these. -/
theorem CommOp.did (he : cc.mp.useEventSync = false) (op : CommOp) {x : Int × Option Ptr} {c c' : Comm}
    {tape : List Ans}
    {arrivals : List (List (Nat × Nat))} (ht : Succeeds tape) (h : op.run cc (c.given tape arrivals) = (.ok x, c')) :
    Did cc.mp op c c' := by
  cases op with
  | irecv buf size type creg srcRank =>
    refine Did.of_given (commPost_did (fun n peer reg w tape x s' ht h => ?_) rfl rfl ht h)
    obtain ⟨p, d, hx, hnew⟩ := mpIrecv_new ht he h
    exact ⟨p, d, .rx, hx, hnew⟩
  | isend buf size type creg destRank =>
    refine Did.of_given (commPost_did (fun n peer reg w tape x s' ht h => ?_) rfl rfl ht h)
    obtain ⟨p, d, hx, hnew⟩ := mpIsend_new ht he h
    exact ⟨p, d, .tx, hx, hnew⟩
  | isendOnStream buf size type creg destRank st =>
    rw [CommOp.run, commIsendOnStream] at h
    refine Did.of_given (commPost_did (fun n peer reg w tape x s' ht h => ?_) rfl rfl ht h)
    obtain ⟨p, d, hx, hnew⟩ := mpIsendOnStream_new ht he h
    exact ⟨p, d, .tx, hx, hnew⟩
  | sendReady rank => exact Did.of_given (commSendReady_did ht h)
  | sendReadyOnStream rank st => exact Did.of_given (commSendReadyOnStream_did ht h)
  | waitReady rank =>
    obtain ⟨ret, c₁, h₁, h₂⟩ := Prog.bind_eq_ok h
    cases h₂
    obtain ⟨hm, hreqs⟩ := commWaitReady_did h₁
    exact .progressed rfl rfl hm hreqs
  | wait req =>
    obtain ⟨ret, c₁, h₁, h₂⟩ := Prog.bind_eq_ok h
    cases h₂
    have hone : commWaitAll cc [req] (c.given tape arrivals) = (.ok ret, c') := h₁
    obtain ⟨hwait, hreqs⟩ := commWaitAll_did hone
    exact .waited rfl hwait hreqs
  | waitAll reqs =>
    obtain ⟨ret, c₁, h₁, h₂⟩ := Prog.bind_eq_ok h
    cases h₂
    obtain ⟨hwait, hreqs⟩ := commWaitAll_did h₁
    exact .waited rfl hwait hreqs
  | progress =>
    obtain ⟨ret, c₁, h₁, h₂⟩ := Prog.bind_eq_ok h
    cases h₂
    obtain ⟨hm, hreqs⟩ := commProgress_did h₁
    exact .progressed rfl rfl hm hreqs
  | flush =>
    obtain ⟨ret, c₁, h₁, h₂⟩ := Prog.bind_eq_ok h
    cases h₂
    obtain ⟨hwait, hreqs⟩ := commFlush_did h₁
    exact .flushed ht hwait hreqs

theorem Did.runs {cfg : Config} {op : CommOp} {c c' : Comm} (h : Did cfg op c c') : Runs cfg c.sys.w c'.sys.w := by
  cases h with
  | tracked _ _ hnew => exact hnew.runs
  | untracked hnew => exact hnew.runs
  | progressed _ _ hm => exact progress_runs hm
  | waited _ hwait => exact mpWaitAll_runs hwait
  | flushed _ hwait => exact mpWaitAll_runs hwait

theorem CommRun.runs (he : cc.mp.useEventSync = false) {ok : CommOp → Comm → Prop} {c₀ c : Comm} {ops : List CommOp}
    (h : CommRun cc ok c₀ ops c) : Runs cc.mp c₀.sys.w c.sys.w := by
  induction h with
  | start => exact .refl _
  | call _ _ ht hrun ih => exact ih.trans (CommOp.did he _ ht hrun).runs

/-! ## The table -/

/-- The requests of the table are distinct and still the operations they were
recorded for, in a world that the library has come to. -/
structure TableOk (cfg : Config) (c : Comm) : Prop where
  runs : Runs cfg World.init c.sys.w
  distinct : (entries c.reqs).Nodup
  recorded : ∀ e ∈ c.reqs, Recorded c.sys.w e.req e.peer e.op

/-- No request of the table is given to `comm_wait` or `comm_wait_all`. -/
def SparesTable (op : CommOp) (c : Comm) : Prop := ∀ ps, op.handles = some ps → ∀ p ∈ ps, p ∉ entries c.reqs

namespace TableOk
variable {cfg : Config} {c c' : Comm} {op : CommOp}

theorem core (h : TableOk cfg c) : CoreInv cfg ⟨c.sys.w, none⟩ := h.runs.core coreInv_init

theorem noneWaited (h : TableOk cfg c) : NoneWaited c.sys.w := h.runs.noneWaited fun _ => rfl

theorem mem_entries {e : Entry} (he : e ∈ c.reqs) : e.req ∈ entries c.reqs := List.mem_map.mpr ⟨e, he, rfl⟩

theorem recorded_entries (h : TableOk cfg c) : ∀ p ∈ entries c.reqs, ∃ peer op, Recorded c.sys.w p peer op := by
  intro p hp
  obtain ⟨e, he, rfl⟩ := List.mem_map.mp hp
  exact ⟨e.peer, e.op, h.recorded e he⟩

/-- A call leaves the table sound. -/
theorem step (he : cfg.useEventSync = false) (h : TableOk cfg c) (hop : SparesTable op c) (hd : Did cfg op c c') :
    TableOk cfg c' := by
  have hruns := h.runs.trans hd.runs
  cases hd with
  | @tracked _ _ _ p d f fl _ _ hnew hn hreqs =>
    -- the new request was free, so it is none of the table
    have hold : ∀ e ∈ c.reqs, Recorded c'.sys.w e.req e.peer e.op ∧ e.req ≠ p :=
      fun e hmem => (h.recorded e hmem).posted h.core hnew
    refine ⟨hruns, ?_, fun e hmem => ?_⟩
    · rw [hreqs, entries, List.map_append]
      refine List.nodup_append.mpr ⟨h.distinct, by simp, fun q hq r hr => ?_⟩
      obtain ⟨e, hmem, rfl⟩ := List.mem_map.mp hq
      obtain rfl := List.mem_singleton.mp hr
      exact (hold e hmem).2
    · rw [hreqs] at hmem
      rcases List.mem_append.mp hmem with hmem | hmem
      · exact (hold e hmem).1
      · obtain rfl := List.mem_singleton.mp hmem
        exact hnew.recorded hn
  | untracked hnew _ hreqs =>
    refine ⟨hruns, by rw [hreqs]; exact h.distinct, fun e hmem => ?_⟩
    rw [hreqs] at hmem
    exact ((h.recorded e hmem).posted h.core hnew).1
  | progressed _ _ hm hreqs =>
    refine ⟨hruns, by rw [hreqs]; exact h.distinct, fun e hmem => ?_⟩
    rw [hreqs] at hmem
    exact recorded_progress he hm (h.recorded e hmem)
  | @waited _ ps _ _ _ hps hwait hreqs =>
    refine ⟨hruns, by rw [hreqs]; exact h.distinct, fun e hmem => ?_⟩
    rw [hreqs] at hmem
    -- the caller waits for none of the table
    have hnot : e.req ∉ ps := fun hin => hop ps hps e.req hin (mem_entries hmem)
    exact (mpWaitAll_others he hwait hnot).2 _ _ (h.recorded e hmem)
  | flushed _ hwait hreqs =>
    refine ⟨hruns, by rw [hreqs]; exact List.nodup_nil, fun e hmem => ?_⟩
    rw [hreqs] at hmem
    cases hmem

/-- A run of calls leaves the table sound. -/
theorem of_run (he : cc.mp.useEventSync = false) {ok : CommOp → Comm → Prop} (hok : ∀ op c, ok op c → SparesTable op c)
    {c₀ : Comm} {ops : List CommOp} (h₀ : TableOk cc.mp c₀) (h : CommRun cc ok c₀ ops c) : TableOk cc.mp c := by
  induction h with
  | start => exact h₀
  | call _ hop ht hrun ih => exact ih.step he (hok _ _ hop) (CommOp.did he _ ht hrun)

theorem init : TableOk cfg Comm.init := ⟨.refl _, List.nodup_nil, fun _ h => by cases h⟩

variable {tape : List Ans} {arrivals : List (List (Nat × Nat))}

/-- A flush of a table with room left is a wait for its requests. -/
theorem flush_eq (hroom : c.reqs.length < maxReqs) {r : Except Stop Int} {y : Sys}
    (hwait : mpWaitAll cc.mp (entries c.reqs) ⟨c.sys.w, tape⟩ = (r, y)) :
    (commFlush cc (c.given tape arrivals)).1 = r.mapError .mp := by
  unfold commFlush
  rw [Prog.bind_ok (Prog.get_run _)]
  by_cases hnil : c.reqs = []
  · have hnil' : (c.given tape arrivals).reqs = [] := hnil
    rw [hnil] at hwait
    cases hwait
    rw [if_pos hnil']
    rfl
  · have hne : (c.given tape arrivals).reqs ≠ [] := hnil
    have hlen : decide ((c.given tape arrivals).reqs.length < maxReqs) = true := decide_eq_true hroom
    have hcall : mpCall (mpWaitAll cc.mp (entries c.reqs)) (c.given tape arrivals) =
        (r.mapError .mp, { c.given tape arrivals with sys := y }) := by
      unfold mpCall
      rw [show (c.given tape arrivals).sys = ⟨c.sys.w, tape⟩ from rfl, hwait]
      cases r <;> rfl
    rw [if_neg hne, hlen]
    show ((mpCall (mpWaitAll cc.mp (entries c.reqs)) >>= fun ret => _) (c.given tape arrivals)).1 = _
    cases r with
    | ok ret =>
      rw [Prog.bind_ok hcall]
      rfl
    | error e =>
      rw [Prog.bind_error hcall]
      rfl

/-- A flush of a sound table with room left returns 0, or is still waiting. -/
theorem flush_result (he : cc.mp.useEventSync = false) (h : TableOk cc.mp c) (hroom : c.reqs.length < maxReqs)
    (ht : Succeeds tape) : (commFlush cc (c.given tape arrivals)).1 = .ok 0 ∨
      (commFlush cc (c.given tape arrivals)).1 = .error (.mp .spinning) := by
  rcases mpWaitAll_recorded he h.core h.distinct h.recorded_entries ht with ⟨s', hwait⟩ | ⟨s', hwait⟩
  · exact .inl (flush_eq hroom hwait)
  · exact .inr (flush_eq hroom hwait)

/-- It returns once the outside completes the requests. -/
theorem flush_ends (he : cc.mp.useEventSync = false) (hpoll : 0 < cc.mp.cqPollCount) (h : TableOk cc.mp c)
    (hroom : c.reqs.length < maxReqs) : ∃ tape, Succeeds tape ∧ (commFlush cc (c.given tape arrivals)).1 = .ok 0 := by
  obtain ⟨tape, s', ht, hwait⟩ := mpWaitAll_ends he hpoll h.core h.noneWaited h.distinct h.recorded_entries
  exact ⟨tape, ht, flush_eq hroom hwait⟩

end TableOk

/-- Requests that are waited for are put back, and stay in the table. -/
theorem Did.stale {cfg : Config} (he : cfg.useEventSync = false) {op : CommOp} {c c' : Comm} {ps : List Ptr}
    (h : Did cfg op c c') (hps : op.handles = some ps) :
    c'.reqs = c.reqs ∧ ∀ p ∈ ps, (c'.sys.w.mem p).owner = none := by
  cases h with
  | tracked _ hnone => rw [hnone] at hps; cases hps
  | untracked => cases hps
  | progressed _ hnone => rw [hnone] at hps; cases hps
  | flushed => cases hps
  | waited hps' hwait hreqs =>
    rw [hps] at hps'
    cases hps'
    refine ⟨hreqs, fun p hp => ?_⟩
    exact mpWaitAll_frees he hwait p hp

/-- A run in which no request of the table is waited for behind its back: the
entries of the table are distinct requests in use, each still the operation it
was recorded for. A flush that finds room in the table returns 0 as soon as the
requests complete, and does not end otherwise. A request of the table that is
waited for is in the pool and in the table afterwards. -/
theorem comm_table_sound (he : cc.mp.useEventSync = false) {ops : List CommOp} {c : Comm}
    (h : CommRun cc SparesTable Comm.init ops c) :
    (entries c.reqs).Nodup ∧
    (∀ e ∈ c.reqs, Live c.sys.w e.req ∧ (c.sys.w.mem e.req).peer = e.peer ∧ (c.sys.w.mem e.req).id = e.op) ∧
    (c.reqs.length < maxReqs → ∀ arrivals,
      (∀ tape, Succeeds tape → (commFlush cc (c.given tape arrivals)).1 = .ok 0 ∨
        (commFlush cc (c.given tape arrivals)).1 = .error (.mp .spinning)) ∧
      (0 < cc.mp.cqPollCount → ∃ tape, Succeeds tape ∧ (commFlush cc (c.given tape arrivals)).1 = .ok 0)) ∧
    (∀ (op : CommOp) ps tape arrivals x c', op.handles = some ps → Succeeds tape →
      op.run cc (c.given tape arrivals) = (.ok x, c') →
      ∀ p ∈ ps, p ∈ entries c.reqs → p ∈ entries c'.reqs ∧ ¬ Live c'.sys.w p) := by
  have htab := TableOk.of_run he (fun _ _ hop => hop) .init h
  refine ⟨htab.distinct, fun e hmem => ?_, fun hroom arrivals => ⟨fun tape ht => ?_, fun hpoll => ?_⟩,
    fun op ps tape arrivals x c' hps ht hrun p hp hin => ?_⟩
  · have hrec := htab.recorded e hmem
    exact ⟨(live_iff_owner htab.core e.req).mpr hrec.owner, hrec.same_peer, hrec.same_op⟩
  · exact htab.flush_result he hroom ht
  · exact htab.flush_ends he hpoll hroom
  · have hdid := CommOp.did he op ht hrun
    obtain ⟨hreqs, hfree⟩ := hdid.stale he hps
    refine ⟨by rw [hreqs]; exact hin, fun hlive => ?_⟩
    exact (live_iff_owner (hdid.runs.core htab.core) p).mp hlive (hfree p hp)

/-- Rank 0 of two ranks. -/
def pairOfRanks : CommConfig := ⟨onePeer, 2, 0, ⟨fun _ => 0, fun _ => 0, fun _ => 4096⟩, 0, ⟨0⟩, 0⟩

/-- A receive of one integer from rank 1. -/
def recvOne : CommOp := .irecv 0 1 .int 0 1

/-- After a receive the table has one entry, and a flush can return 0. -/
theorem comm_table_sound_of_recv : ∃ c, CommRun pairOfRanks SparesTable Comm.init [recvOne] c ∧
    c.reqs = [⟨0, 1, 1⟩] ∧ Live c.sys.w 0 ∧
    ∃ tape, Succeeds tape ∧ (commFlush pairOfRanks (c.given tape [])).1 = .ok 0 := by
  have hspares : SparesTable recvOne Comm.init := fun ps hps => by cases hps
  have hsucc : Succeeds [] := by simp [Succeeds]
  have hrun : CommRun pairOfRanks SparesTable Comm.init [recvOne] (recvOne.run pairOfRanks (Comm.init.given [] [])).2 :=
    .call (x := (0, some 0)) .start hspares hsucc rfl
  have hreqs : (recvOne.run pairOfRanks (Comm.init.given [] [])).2.reqs = [⟨0, 1, 1⟩] := rfl
  obtain ⟨-, hlive, hflush, -⟩ := comm_table_sound rfl hrun
  refine ⟨_, hrun, hreqs, (hlive ⟨0, 1, 1⟩ (by rw [hreqs]; simp)).1, ?_⟩
  exact (hflush (by rw [hreqs]; decide) []).2 (by decide)

/-- The receive is waited for, as any other: its request is back in the pool
and still in the table, and a flush ends the process. -/
theorem waited_request_stays_in_table :
    ∃ c, CommRun pairOfRanks (fun _ _ => True) Comm.init [recvOne, .wait 0] c ∧ c.reqs = [⟨0, 1, 1⟩] ∧
      ¬ Live c.sys.w 0 ∧ (commFlush pairOfRanks (c.given [] [])).1 = .error (.mp .assertType) := by
  have hsucc : Succeeds [] := by simp [Succeeds]
  have hsucc' : Succeeds [{}, {}, { picks := [0] }] := by simp [Succeeds]
  have hrun₁ : CommRun pairOfRanks (fun _ _ => True) Comm.init [recvOne]
    (recvOne.run pairOfRanks (Comm.init.given [] [])).2 := .call (x := (0, some 0)) .start trivial hsucc rfl
  have hrun₂ : CommRun pairOfRanks (fun _ _ => True) Comm.init [recvOne, .wait 0] ((CommOp.wait 0).run pairOfRanks
      ((recvOne.run pairOfRanks (Comm.init.given [] [])).2.given [{}, {}, { picks := [0] }] [])).2 :=
    .call (x := (0, none)) hrun₁ trivial hsucc' rfl
  refine ⟨_, hrun₂, rfl, fun hlive => ?_, rfl⟩
  have hown := (live_iff_owner ((hrun₂.runs rfl).core coreInv_init) 0).mp hlive
  exact hown rfl

/-! ## What a flush leaves in use -/

/-- Posting takes one request that was not in use. -/
theorem NewRequest.owner_iff {cfg : Config} {w w' : World} {p : Ptr} {d : Nat} {f : Flow} {fl : Nat}
    (h : NewRequest cfg w w' p d f fl) (hc : CoreInv cfg ⟨w, none⟩) :
    (w.mem p).owner = none ∧ ∀ q, (w'.mem q).owner ≠ none ↔ (w.mem q).owner ≠ none ∨ q = p := by
  have hfree : (w.mem p).owner = none := by
    rw [h.ptr]
    exact (nextFree_free hc).1
  refine ⟨hfree, fun q => ?_⟩
  by_cases hq : q = p
  · rw [hq]
    exact ⟨fun _ => .inr rfl, fun _ => h.owner⟩
  · obtain ⟨⟨-, -, -, -, hown, -⟩, -⟩ := h.rest q hq
    rw [hown]
    simp [hq]

/-- In use are the requests that were in use in `w₀`, those of the table, and
`leaked`. -/
structure InUse (w₀ : World) (c : Comm) (leaked : List Ptr) : Prop where
  distinct : (leaked ++ entries c.reqs).Nodup
  fresh : ∀ p ∈ leaked ++ entries c.reqs, (w₀.mem p).owner = none
  owner : ∀ p, (c.sys.w.mem p).owner ≠ none ↔ (w₀.mem p).owner ≠ none ∨ p ∈ leaked ++ entries c.reqs

namespace InUse
variable {cfg : Config} {w₀ : World} {c c' : Comm} {leaked leaked' : List Ptr} {op : CommOp}

/-- A request is posted, and recorded or leaked. -/
theorem posted (h : InUse w₀ c leaked) (hc : CoreInv cfg ⟨c.sys.w, none⟩) {p : Ptr} {d : Nat} {f : Flow} {fl : Nat}
    (hnew : NewRequest cfg c.sys.w c'.sys.w p d f fl)
    (hperm : (leaked' ++ entries c'.reqs).Perm (p :: (leaked ++ entries c.reqs))) : InUse w₀ c' leaked' := by
  obtain ⟨hfree, hown⟩ := hnew.owner_iff hc
  have hnot : (w₀.mem p).owner = none ∧ p ∉ leaked ++ entries c.reqs := by
    have hp := (h.owner p).not.mp (not_not.mpr hfree)
    push Not at hp
    exact hp
  refine ⟨hperm.nodup_iff.mpr (List.nodup_cons.mpr ⟨hnot.2, h.distinct⟩), fun q hq => ?_, fun q => ?_⟩
  · rcases List.mem_cons.mp (hperm.mem_iff.mp hq) with rfl | hq
    · exact hnot.1
    · exact h.fresh q hq
  · rw [hown q, h.owner q, hperm.mem_iff, List.mem_cons]
    tauto

/-- Nothing but `comm_send_ready` leaks, and it leaks one request. -/
theorem step (he : cfg.useEventSync = false) (h : InUse w₀ c leaked) (htab : TableOk cfg c) (hop : op.handles = none)
    (hd : Did cfg op c c') :
    ∃ leaked', leaked'.length = leaked.length + op.isSendReady.toNat ∧ InUse w₀ c' leaked' := by
  cases hd with
  | @tracked _ _ _ p _ _ _ hop' _ hnew _ hreqs =>
    refine ⟨leaked, by rw [hop']; rfl, h.posted htab.core hnew ?_⟩
    rw [hreqs, entries, List.map_append, ← List.append_assoc]
    exact List.perm_append_singleton _ _
  | @untracked _ _ _ p _ _ _ hnew _ hreqs =>
    -- the put of `comm_send_ready`: nobody keeps its request
    refine ⟨p :: leaked, rfl, h.posted htab.core hnew ?_⟩
    rw [hreqs]
    exact .refl _
  | progressed hop' _ hm hreqs =>
    refine ⟨leaked, by rw [hop']; rfl, ⟨?_, ?_, fun p => ?_⟩⟩
    · rw [hreqs]
      exact h.distinct
    · rw [hreqs]
      exact h.fresh
    · have hsame := owner_progress he hm p
      rw [hreqs, hsame]
      exact h.owner p
  | waited hps => rw [hop] at hps; cases hps
  | @flushed _ _ _ ret ht hwait hreqs =>
    -- the wait returned, so it returned 0 and has put back the whole table
    have hret : ret = 0 := by
      rcases mpWaitAll_recorded he htab.core htab.distinct htab.recorded_entries ht with ⟨s', h0⟩ | ⟨s', hspin⟩
      · rw [hwait] at h0
        cases h0
        rfl
      · rw [hwait] at hspin
        cases hspin
    rw [hret] at hwait
    refine ⟨leaked, rfl, ⟨?_, ?_, fun p => ?_⟩⟩ <;> rw [hreqs]
    · exact h.distinct.sublist (List.Sublist.append_left (List.nil_sublist _) leaked)
    · intro p hp
      refine h.fresh p (List.mem_append_left _ ?_)
      simpa [entries] using hp
    · rw [show entries [] = [] from rfl, List.append_nil]
      by_cases hin : p ∈ entries c.reqs
      · have hnot : p ∉ leaked := fun hl => (List.nodup_append.mp h.distinct).2.2 p hl p hin rfl
        have hfree := mpWaitAll_frees he hwait p hin
        have hfresh := h.fresh p (List.mem_append_right _ hin)
        simp [hfree, hfresh, hnot]
      · rw [(mpWaitAll_others he hwait hin).1, h.owner p, List.mem_append]
        tauto

theorem of_run (he : cc.mp.useEventSync = false) {c₀ : Comm} {ops : List CommOp} (htab : TableOk cc.mp c₀)
    (hempty : c₀.reqs = []) (h : CommRun cc (fun op _ => op.handles = none) c₀ ops c) :
    ∃ leaked, leaked.length = ops.countP CommOp.isSendReady ∧ InUse c₀.sys.w c leaked := by
  induction h with
  | start =>
    refine ⟨[], rfl, ⟨?_, ?_, fun p => ?_⟩⟩ <;> rw [hempty]
    · exact List.nodup_nil
    · intro p hp
      cases hp
    · simp [entries]
  | @call ops c op tape arrivals x c' hrun hop ht hcall ih =>
    obtain ⟨leaked, hlen, hin⟩ := ih
    have htab' : TableOk cc.mp c :=
      TableOk.of_run he (fun op c hnone ps hps => by rw [hnone] at hps; cases hps) htab hrun
    obtain ⟨leaked', hlen', hin'⟩ := hin.step he htab' hop (CommOp.did he op ht hcall)
    refine ⟨leaked', ?_, hin'⟩
    rw [hlen', hlen, List.countP_append, List.countP_singleton]
    cases op.isSendReady <;> rfl

end InUse

/-- The number of requests in use. -/
noncomputable def liveCount (w : World) : Nat := {p | Live w p}.ncard

theorem live_finite (w : World) : {p | Live w p}.Finite :=
  (Set.finite_lt_nat w.frontier).subset fun _ hp => hp.1

/-- A run without waits for single requests, from an empty table to a flush that
returns 0: there is one request in use for each call of `comm_send_ready` more
than before. So the requests in use are the same as before the run exactly if
there is no such call. -/
theorem flush_leaves_ready_puts (he : cc.mp.useEventSync = false) {c₀ c c' : Comm} {ops : List CommOp} {tape : List Ans}
    {arrivals : List (List (Nat × Nat))} (hworld : Runs cc.mp World.init c₀.sys.w) (hempty : c₀.reqs = [])
    (hrun : CommRun cc (fun op _ => op.handles = none) c₀ ops c) (ht : Succeeds tape)
    (hflush : commFlush cc (c.given tape arrivals) = (.ok 0, c')) :
    liveCount c'.sys.w = liveCount c₀.sys.w + ops.countP CommOp.isSendReady ∧
    ((∀ p, Live c'.sys.w p ↔ Live c₀.sys.w p) ↔ ∀ op ∈ ops, op.isSendReady = false) := by
  have htab₀ : TableOk cc.mp c₀ := by
    refine ⟨hworld, ?_, ?_⟩ <;> rw [hempty]
    · exact List.nodup_nil
    · intro e hmem
      cases hmem
  have htab : TableOk cc.mp c :=
    TableOk.of_run he (fun op c hnone ps hps => by rw [hnone] at hps; cases hps) htab₀ hrun
  obtain ⟨leaked, hlen, hin⟩ := InUse.of_run he htab₀ hempty hrun
  obtain ⟨hwait, hreqs⟩ := commFlush_did hflush
  have hdid : Did cc.mp .flush c c' := .flushed ht hwait hreqs
  obtain ⟨leaked', hlen', hin'⟩ := hin.step he htab rfl hdid
  have hlive : ∀ p, Live c'.sys.w p ↔ Live c₀.sys.w p ∨ p ∈ leaked' := by
    intro p
    rw [live_iff_owner (hdid.runs.core htab.core) p, live_iff_owner htab₀.core p, hin'.owner p, hreqs]
    simp [entries]
  have hnew : ∀ p ∈ leaked', ¬ Live c₀.sys.w p := by
    intro p hp hl
    exact (live_iff_owner htab₀.core p).mp hl (hin'.fresh p (List.mem_append_left _ hp))
  have hcount : leaked'.length = ops.countP CommOp.isSendReady := hlen'.trans hlen
  have hnodup : leaked'.Nodup := hin'.distinct.of_append_left
  refine ⟨?_, ?_⟩
  · -- the leaked requests are new, and each is counted once
    have hset : {p | Live c'.sys.w p} = {p | Live c₀.sys.w p} ∪ (leaked'.toFinset : Set Ptr) := by
      ext p
      simp [hlive p]
    have hdisj : Disjoint {p | Live c₀.sys.w p} (leaked'.toFinset : Set Ptr) := by
      rw [Set.disjoint_left]
      intro p hl hp
      exact hnew p (by simpa using hp) hl
    unfold liveCount
    rw [hset, Set.ncard_union_eq hdisj (live_finite _) (Finset.finite_toSet _), Set.ncard_coe_finset,
      List.toFinset_card_of_nodup hnodup, hcount]
  · rw [show (∀ op ∈ ops, op.isSendReady = false) ↔ leaked' = [] by
      rw [← List.length_eq_zero_iff, hcount, List.countP_eq_zero]
      simp]
    refine ⟨fun hsame => List.eq_nil_iff_forall_not_mem.mpr fun p hp => ?_, fun hnil p => ?_⟩
    · exact hnew p hp ((hsame p).mp ((hlive p).mpr (.inr hp)))
    · rw [hlive p, hnil]
      simp

/-- A receive is flushed: no more requests are in use than before. -/
theorem flush_leaves_ready_puts_of_recv :
    ∃ c c' tape, CommRun pairOfRanks (fun op _ => op.handles = none) Comm.init [recvOne] c ∧
    commFlush pairOfRanks (c.given tape []) = (.ok 0, c') ∧ ∀ p, Live c'.sys.w p ↔ Live World.init p := by
  have hsucc : Succeeds [] := by simp [Succeeds]
  have hsucc' : Succeeds [{}, {}, { picks := [0] }] := by simp [Succeeds]
  have hrun : CommRun pairOfRanks (fun op _ => op.handles = none) Comm.init [recvOne]
      (recvOne.run pairOfRanks (Comm.init.given [] [])).2 :=
    .call (x := (0, some 0)) .start rfl hsucc rfl
  have hflush : commFlush pairOfRanks
      ((recvOne.run pairOfRanks (Comm.init.given [] [])).2.given [{}, {}, { picks := [0] }] []) = (.ok 0, _) := rfl
  refine ⟨_, _, _, hrun, hflush, ?_⟩
  refine (flush_leaves_ready_puts rfl (.refl _) rfl hrun hsucc' hflush).2.mpr fun op hop => ?_
  obtain rfl := List.mem_singleton.mp hop
  rfl

/-- `comm_send_ready`, then a flush that returns 0: its request is in use, which
no request was before. -/
theorem ready_put_stays_in_use :
    ∃ c c', CommRun pairOfRanks (fun op _ => op.handles = none) Comm.init [.sendReady 1] c ∧
    commFlush pairOfRanks (c.given [] []) = (.ok 0, c') ∧ Live c'.sys.w 0 ∧ ∀ p, ¬ Live World.init p := by
  have hsucc : Succeeds [] := by simp [Succeeds]
  have hrun : CommRun pairOfRanks (fun op _ => op.handles = none) Comm.init [.sendReady 1]
      ((CommOp.sendReady 1).run pairOfRanks (Comm.init.given [] [])).2 :=
    .call (x := (0, some 0)) .start rfl hsucc rfl
  refine ⟨_, _, hrun, rfl, ?_, fun p hp => ?_⟩
  · exact (live_iff_owner ((hrun.runs rfl).core coreInv_init) 0).mpr (by decide)
  · have hcore : CoreInv onePeer ⟨World.init, none⟩ := coreInv_init
    exact (live_iff_owner hcore p).mp hp (init_owner p)

end LibMp
