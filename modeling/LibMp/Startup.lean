import LibMp.Collective
import LibMp.Windows

/- `mp_init` on all ranks of a job, step by step (mp.c, 823-1213).

   A rank makes its queue pairs, exchanges their addresses with all ranks, moves
   its queue pairs to RTR, waits for all ranks, moves them to RTS and waits again.
   Each round of a loop is a step of its own, and the ranks take their steps in
   any order; what a rank puts into the exchange is what it has when it enters.
   A rank for which a call fails returns, or exits, without telling the others;
   where `ibv_reg_mr` fails it spins in `mp_register`. The result of
   `ibv_query_port` is not looked at: it fails without consequence, but for the lid
   that is exchanged. The part with `MP_ENABLE_IPC` is left out.

   What one round does is that of `Init`. The ranks are a team in the sense of
   `Collective`, so that the runs need no further induction. -/
namespace LibMp

/-- What a rank sets up: `mp_init` the first part, and the rest after it the
ready tables of COMM and their window. -/
structure Node where
  boot : Boot
  tables : ReadyTables
  exchangeWin : Nat → ExchangeWinInfo
  window : Window

/-- Why a rank does not get through. -/
inductive StartStop where
  /-- `mp_init` does not return `MP_SUCCESS` -/
  | mpInit (e : InitStop)
  /-- a failed `assert` -/
  | assertion
  /-- `exit(-1)` in `MP_CHECK` -/
  | mpCheck
  /-- `spin_forever` in `mp_register` -/
  | spinning
  deriving DecidableEq

/-- How `mp_register` ends for a buffer of the host. -/
inductive Registered where
  | done
  /-- `calloc` returns NULL, and `mp_register` returns `MP_FAILURE` -/
  | failure
  /-- `ibv_reg_mr` returns NULL -/
  | spinning
  deriving DecidableEq

/-- The call of `mp_register`, and what its caller does with a failure. -/
def Registered.orElse (r : Registered) (e : StartStop) : Prog Node StartStop Unit :=
  match r with
  | .done => return ()
  | .failure => Prog.stop e
  | .spinning => Prog.stop .spinning

/-- The calls of `mp_init` on all ranks, with the answers that are not in a
`Launch`; and what stands in memory before. `opens` is whether the calls before
the first loop come out well, as far as `mp_init` looks at their results:
`gds_query_param` and the version it gives, `ibv_get_device_list`,
`ibv_open_device`, `ibv_query_device`, `ibv_alloc_pd` and the allocations.
`padding` is `mp_register` for `ud_padding`. -/
structure Startup where
  job : Job
  opens : Nat → Bool
  padding : Nat → Registered
  blank : Nat → Node
  blank_boot : ∀ a, (blank a).boot = Boot.init (job.launch a)

/-- A part of `mp_init` as a turn of a rank. -/
def onBoot (m : IM Unit) : Prog Node StartStop Unit := fun s =>
  match m s.boot with
  | (.ok u, b) => (.ok u, { s with boot := b })
  | (.error e, b) => (.error (.mpInit e), { s with boot := b })

/-- The rounds of `forPeers`, each a turn. -/
def turnsFor (body : Nat → Nat → IM Unit) : List Nat → Nat → List (Prog Node StartStop Unit)
  | [], _ => []
  | peer :: rest, i => onBoot (body i peer) :: turnsFor body rest (i + 1)

namespace Startup
variable (su : Startup)

abbrev Rank := Fin su.job.size

/-- The call of a rank. -/
def launch (a : su.Rank) : Launch := su.job.launch a

/-- The tables of `mp_init` on the ranks, by number. -/
def boots (nodes : su.Rank → Node) (a : Nat) : Boot :=
  if h : a < su.job.size then (nodes ⟨a, h⟩).boot else (su.blank a).boot

/-- `if (mp_enable_ud) { mp_register(ud_padding, ..); assert(..) }`. -/
def registerPadding (a : su.Rank) : List (Prog Node StartStop Unit) :=
  if (su.launch a).enableUd then [(su.padding a).orElse .assertion] else []

/-- Up to `MPI_Alltoall`. -/
def createStage : Stage su.Rank Node StartStop where
  turns a := onBoot (Prog.require (su.opens a) .failure) :: turnsFor (createClient (su.launch a)) (su.launch a).peers 0
  join nodes a := { nodes a with boot := alltoall (su.boots nodes) a }

/-- Up to the first `MPI_Barrier`. -/
def receiveStage : Stage su.Rank Node StartStop where
  turns a := turnsFor (readyToReceive (su.launch a)) (su.launch a).peers 0
  join := id

/-- Up to the second one. -/
def sendStage : Stage su.Rank Node StartStop where
  turns a := turnsFor (readyToSend (su.launch a)) (su.launch a).peers 0 ++ su.registerPadding a
  join := id

/-- `mp_init`, and what a program does after it. -/
def mpInitThen (rest : Plan su.Rank Node StartStop) : Plan su.Rank Node StartStop :=
  Plan.after [su.createStage, su.receiveStage, su.sendStage] rest

def mpInitPlan : Plan su.Rank Node StartStop := su.mpInitThen .nothing

/-- What a rank starts with. -/
def before (a : su.Rank) : Node := su.blank a

/-- The calls outside the library whose results `mp_init` looks at come out well, on
every rank. -/
structure AllWell : Prop where
  opens : ∀ a : su.Rank, su.opens a
  created : ∀ (a : su.Rank), ∀ i < (su.launch a).peers.length,
    ((su.launch a).createQp i).isSome ∧ (su.launch a).modifyQp .init i = 0
  received : ∀ (a : su.Rank), ∀ i < (su.launch a).peers.length, (su.launch a).modifyQp .rtr i = 0
  sent : ∀ (a : su.Rank), ∀ i < (su.launch a).peers.length,
    (su.launch a).modifyQp .rts i = 0 ∧ ((su.launch a).enableUd → (su.launch a).createAh i)
  padding : ∀ a : su.Rank, (su.launch a).enableUd → su.padding a = .done

end Startup

/-! ## Turns and loops -/

theorem onBoot_run (m : IM Unit) (s : Node) :
    (onBoot m s).2 = { s with boot := (m s.boot).2 } ∧ ((onBoot m s).1 = .ok () ↔ (m s.boot).1 = .ok ()) := by
  unfold onBoot
  cases m s.boot with
  | mk r b =>
    cases r with
    | ok u => simp
    | error e => simp

theorem onBoot_eq_ok {m : IM Unit} {s s' : Node} (h : onBoot m s = (.ok (), s')) : m s.boot = (.ok (), s'.boot) := by
  obtain ⟨hsnd, hfst⟩ := onBoot_run m s
  rw [h] at hsnd hfst
  exact Prod.ext (hfst.mp rfl) (congrArg Node.boot hsnd).symm

theorem onBoot_bind (m : IM Unit) (f : Unit → IM Unit) : onBoot (m >>= f) = onBoot m >>= fun u => onBoot (f u) := by
  funext s
  rw [Prog.bind_run]
  unfold onBoot
  rw [Prog.bind_run]
  cases m s.boot with
  | mk r b => cases r <;> rfl

theorem runAll_turnsFor (body : Nat → Nat → IM Unit) (rest : List Nat) (i : Nat) :
    runAll (turnsFor body rest i) = onBoot (forPeers body rest i) := by
  induction rest generalizing i with
  | nil => rfl
  | cons peer rest ih => rw [turnsFor, runAll, ih, forPeers, onBoot_bind]

/-- A sequence returns exactly if both parts do. -/
theorem bind_fst_ok {m : Prog σ ε Unit} {f : Unit → Prog σ ε Unit} {s : σ} :
    ((m >>= f) s).1 = .ok () ↔ (m s).1 = .ok () ∧ (f () (m s).2).1 = .ok () := by
  rw [Prog.bind_run]
  cases m s with
  | mk r x =>
    cases r with
    | ok u => simp
    | error e => simp

theorem require_fst_ok {b : Bool} {e : ε} {s : σ} : ((Prog.require b e : Prog σ ε Unit) s).1 = .ok () ↔ b = true := by
  cases b with
  | true => simp [Prog.require]
  | false => simp [Prog.require]

section
variable {l : Launch} {i peer : Nat} {b : Boot}

/-- A loop goes through exactly if every round does, where this does not depend
on the rounds before. -/
theorem forPeers_fst_ok {body : Nat → Nat → IM Unit} {good : Nat → Prop}
    (hbody : ∀ i peer b, (body i peer b).1 = .ok () ↔ good i) (rest : List Nat) :
    (forPeers body rest i b).1 = .ok () ↔ ∀ k < rest.length, good (i + k) := by
  induction rest generalizing i b with
  | nil => exact ⟨fun _ k hk => absurd hk (Nat.not_lt_zero k), fun _ => rfl⟩
  | cons peer rest ih =>
    rw [forPeers, bind_fst_ok, hbody, ih]
    constructor
    · rintro ⟨h₀, hrest⟩ k hk
      cases k with
      | zero => exact h₀
      | succ k =>
        rw [show i + (k + 1) = i + 1 + k by omega]
        exact hrest k (Nat.lt_of_succ_lt_succ hk)
    · intro h
      refine ⟨h 0 (Nat.succ_pos _), fun k hk => ?_⟩
      rw [show i + 1 + k = i + (k + 1) by omega]
      exact h (k + 1) (Nat.succ_lt_succ hk)

theorem createClient_fst_ok :
    (createClient l i peer b).1 = .ok () ↔ (l.createQp i).isSome = true ∧ l.modifyQp .init i = 0 := by
  unfold createClient setConn
  rw [bind_fst_ok, bind_fst_ok]
  cases hq : l.createQp i with
  | none =>
    refine ⟨fun h => ?_, fun h => ?_⟩
    · cases h.2.2
    · cases h.1
  | some q =>
    rw [bind_fst_ok, bind_fst_ok, require_fst_ok, decide_eq_true_eq]
    exact ⟨fun h => ⟨rfl, h.2.2.2.1⟩, fun h => ⟨rfl, rfl, rfl, h.2, rfl⟩⟩

theorem readyToReceive_fst_ok : (readyToReceive l i peer b).1 = .ok () ↔ l.modifyQp .rtr i = 0 := by
  unfold readyToReceive setConn
  rw [Prog.bind_ok (Prog.get_run b), bind_fst_ok, require_fst_ok, decide_eq_true_eq]
  exact ⟨fun h => h.1, fun h => ⟨h, rfl⟩⟩

theorem readyToSend_fst_ok :
    (readyToSend l i peer b).1 = .ok () ↔ l.modifyQp .rts i = 0 ∧ (l.enableUd → l.createAh i) := by
  unfold readyToSend setConn
  rw [Prog.bind_ok (Prog.get_run b), bind_fst_ok, require_fst_ok, decide_eq_true_eq, bind_fst_ok]
  by_cases hud : l.enableUd = true
  · rw [if_pos hud, bind_fst_ok, require_fst_ok]
    exact ⟨fun h => ⟨h.1, fun _ => h.2.2.1⟩, fun h => ⟨h.1, rfl, h.2 hud, rfl⟩⟩
  · rw [if_neg hud]
    exact ⟨fun h => ⟨h.1, fun hud' => absurd hud' hud⟩, fun h => ⟨h.1, rfl, rfl⟩⟩

end

theorem orElse_run (r : Registered) (e : StartStop) (x : Node) :
    ((r.orElse e x).1 = .ok () ↔ r = .done) ∧ (r.orElse e x).2 = x := by
  cases r with
  | done => exact ⟨⟨fun _ => rfl, fun _ => rfl⟩, rfl⟩
  | failure | spinning => exact ⟨⟨fun h => (by cases h), fun h => (by cases h)⟩, rfl⟩

/-! ## The stages of mp_init

`mp_init` comes first in the plans below; `rest` is what a program does after it. -/

namespace Startup
variable (su : Startup) (rest : Plan su.Rank Node StartStop)

theorem outcome_create (a : su.Rank) : (su.mpInitThen rest).outcome su.before 0 a =
    onBoot (Prog.require (su.opens a) .failure >>= fun _ => mpInitCreate (su.launch a)) (su.before a) := by
  rw [onBoot_bind, mpInitCreate, ← runAll_turnsFor]
  rfl

theorem outcome_receive (a : su.Rank) : (su.mpInitThen rest).outcome su.before 1 a =
    onBoot (forPeers (readyToReceive (su.launch a)) (su.launch a).peers 0)
      ((su.mpInitThen rest).entry su.before 1 a) := by
  rw [← runAll_turnsFor]
  rfl

theorem outcome_send (a : su.Rank) : (su.mpInitThen rest).outcome su.before 2 a =
    (onBoot (forPeers (readyToSend (su.launch a)) (su.launch a).peers 0) >>= fun _ => runAll (su.registerPadding a))
      ((su.mpInitThen rest).entry su.before 2 a) := by
  rw [← runAll_turnsFor, ← runAll_append]
  rfl

/-- The registration leaves the tables alone. -/
theorem registerPadding_run (a : su.Rank) (x : Node) :
    ((runAll (su.registerPadding a) x).1 = .ok () ↔ ((su.launch a).enableUd → su.padding a = .done)) ∧
      (runAll (su.registerPadding a) x).2 = x := by
  unfold registerPadding
  by_cases hud : (su.launch a).enableUd = true
  · rw [if_pos hud, runAll]
    obtain ⟨hok, hsame⟩ := orElse_run (su.padding a) .assertion x
    refine ⟨?_, ?_⟩
    · rw [bind_fst_ok, hok]
      exact ⟨fun h _ => h.1, fun h => ⟨h hud, rfl⟩⟩
    · rw [Prog.bind_run]
      cases hp : (su.padding a).orElse .assertion x with
      | mk r y =>
        rw [hp] at hsame
        cases r <;> exact hsame
  · rw [if_neg hud]
    exact ⟨⟨fun _ h => absurd h hud, fun _ => rfl⟩, rfl⟩

theorem comes_create (a : su.Rank) : (su.mpInitThen rest).Comes su.before 0 a ↔
    su.opens a ∧ ∀ i < (su.launch a).peers.length,
      ((su.launch a).createQp i).isSome ∧ (su.launch a).modifyQp .init i = 0 := by
  unfold Plan.Comes
  rw [outcome_create, (onBoot_run _ _).2, bind_fst_ok, require_fst_ok, mpInitCreate,
    forPeers_fst_ok (@createClient_fst_ok (su.launch a))]
  simp only [Nat.zero_add]

theorem comes_receive (a : su.Rank) : (su.mpInitThen rest).Comes su.before 1 a ↔
    ∀ i < (su.launch a).peers.length, (su.launch a).modifyQp .rtr i = 0 := by
  unfold Plan.Comes
  rw [outcome_receive, (onBoot_run _ _).2, forPeers_fst_ok (@readyToReceive_fst_ok (su.launch a))]
  simp only [Nat.zero_add]

theorem comes_send (a : su.Rank) : (su.mpInitThen rest).Comes su.before 2 a ↔
    (∀ i < (su.launch a).peers.length,
      (su.launch a).modifyQp .rts i = 0 ∧ ((su.launch a).enableUd → (su.launch a).createAh i)) ∧
    ((su.launch a).enableUd → su.padding a = .done) := by
  unfold Plan.Comes
  rw [outcome_send, bind_fst_ok, (onBoot_run _ _).2, forPeers_fst_ok (@readyToSend_fst_ok (su.launch a)),
    (su.registerPadding_run a _).1]
  simp only [Nat.zero_add]

/-- `mp_init` fails nowhere exactly if nothing it calls does. -/
theorem allWell_iff : su.AllWell ↔ ∀ k < 3, ∀ a, (su.mpInitThen rest).Comes su.before k a := by
  constructor
  · intro h k hk a
    match k, hk with
    | 0, _ => exact (su.comes_create rest a).mpr ⟨h.opens a, h.created a⟩
    | 1, _ => exact (su.comes_receive rest a).mpr (h.received a)
    | 2, _ => exact (su.comes_send rest a).mpr ⟨h.sent a, h.padding a⟩
  · intro h
    exact ⟨fun a => ((su.comes_create rest a).mp (h 0 (by decide) a)).1,
      fun a => ((su.comes_create rest a).mp (h 0 (by decide) a)).2,
      fun a => (su.comes_receive rest a).mp (h 1 (by decide) a),
      fun a => ((su.comes_send rest a).mp (h 2 (by decide) a)).1,
      fun a => ((su.comes_send rest a).mp (h 2 (by decide) a)).2⟩

variable {su rest}

theorem boots_self (nodes : su.Rank → Node) (a : su.Rank) : su.boots nodes a = (nodes a).boot := dif_pos a.2

/-- The exchange changes only `qpinfo_all`. -/
theorem entry_receive_clients (a : su.Rank) : ((su.mpInitThen rest).entry su.before 1 a).boot.clients =
    ((su.mpInitThen rest).outcome su.before 0 a).2.boot.clients := by
  have hself := congrArg Boot.clients (boots_self (fun c => ((su.mpInitThen rest).outcome su.before 0 c).2) a)
  exact hself

/-- The slot of `b` at `a` is the slot of `a` at `b` before. -/
theorem entry_receive_slot (a b : su.Rank) : ((su.mpInitThen rest).entry su.before 1 a).boot.qpinfoAll b =
    ((su.mpInitThen rest).outcome su.before 0 b).2.boot.qpinfoAll a := by
  have hself := congrArg Boot.qpinfoAll (boots_self (fun c => ((su.mpInitThen rest).outcome su.before 0 c).2) b)
  exact congrFun hself a

/-- What the ranks bring to `MPI_Alltoall`. -/
theorem created (h : ∀ a, (su.mpInitThen rest).Comes su.before 0 a) (a : su.Rank) :
    mpInitCreate (su.launch a) (Boot.init (su.launch a)) =
      (.ok (), ((su.mpInitThen rest).outcome su.before 0 a).2.boot) := by
  have hok : (su.mpInitThen rest).outcome su.before 0 a =
      (.ok (), ((su.mpInitThen rest).outcome su.before 0 a).2) := Prod.ext (h a) rfl
  rw [outcome_create] at hok
  have hboot := (require_bind_ok (onBoot_eq_ok hok)).2
  rw [show (su.before a).boot = Boot.init (su.launch a) from su.blank_boot a] at hboot
  rw [hboot, outcome_create]

/-- What `mp_init` leaves on all ranks is what it leaves when the ranks go
through it side by side. -/
theorem starts (h : ∀ k < 3, ∀ a, (su.mpInitThen rest).Comes su.before k a) :
    su.job.Starts (su.boots fun a => (su.mpInitThen rest).entry su.before 3 a) := by
  refine ⟨su.boots fun a => ((su.mpInitThen rest).outcome su.before 0 a).2, fun a ha => ?_, fun a ha => ?_⟩
  · rw [boots_self _ ⟨a, ha⟩]
    exact created (h 0 (by decide)) ⟨a, ha⟩
  · have hrtr : (su.mpInitThen rest).outcome su.before 1 ⟨a, ha⟩ =
        (.ok (), (su.mpInitThen rest).entry su.before 2 ⟨a, ha⟩) := Prod.ext (h 1 (by decide) ⟨a, ha⟩) rfl
    have hrts : (su.mpInitThen rest).outcome su.before 2 ⟨a, ha⟩ =
        (.ok (), (su.mpInitThen rest).entry su.before 3 ⟨a, ha⟩) := Prod.ext (h 2 (by decide) ⟨a, ha⟩) rfl
    rw [outcome_receive] at hrtr
    rw [outcome_send] at hrts
    obtain ⟨_, x, hx, hpad⟩ := Prog.bind_eq_ok hrts
    have hsame : x = (su.mpInitThen rest).entry su.before 3 ⟨a, ha⟩ := by
      have := (su.registerPadding_run ⟨a, ha⟩ x).2
      rw [hpad] at this
      exact this.symm
    rw [boots_self _ ⟨a, ha⟩, ← hsame, mpInitConnect]
    exact (Prog.bind_ok (onBoot_eq_ok hrtr) _).trans (onBoot_eq_ok hx)

end Startup

end LibMp
