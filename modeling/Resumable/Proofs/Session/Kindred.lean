import Resumable.Proofs.Lowering.Markless
import Resumable.Proofs.Lowering.Unmarked
import Resumable.Proofs.Session.Faults
import Resumable.Proofs.Session.Starting

/-!
# Machines of which the only difference are markers

Two machines that have the same bodies loaded, the markers apart, do the same if these do not matter
to the bodies (`Kindred`): every call that ends on the one machine ends alike on the other
(`Kindred.callWithin_attained`).  Calls of their enumerators in a row, and what is observed of lowered
methods on them, follow from that (`Call.runAll_attains`, `observe_attains`).
-/

set_option autoImplicit false

namespace Resumable.Session

open Resumable.Machine Resumable.Symbol Resumable.Tree Resumable.Source Resumable.Lowering
open Resumable.StateMachine

variable {σ α β : Type}

/-! ## Bodies -/

/-- Every end that is seen in the first row is seen in the second row from some place on. -/
def Shows (x y : Nat → Flow σ) : Prop :=
  ∀ k e z, (x k e).map seen = some z → ∃ n, ∀ j, n ≤ j → (y j e).map seen = some z

theorem Shows.trans {x y z : Nat → Flow σ} (h : Shows x y) (h' : Shows y z) : Shows x z := by
  intro k e r hr
  obtain ⟨n, hn⟩ := h k e r hr
  exact h' n e r (hn n (Nat.le_refl n))

/-- Bodies show the ends of their statements. -/
theorem shows_execBody {S S' : Nat → Setting σ} (hS : Serves S S') {scope scope' : Range}
    {b b' : Block} (h : Follows (fun _ => False)
      (fun k => (S k).rounds scope [] (labelsBlock b) ((S k).passBlock scope 0 [] b) .start)
      fun k => (S' k).rounds scope' [] (labelsBlock b') ((S' k).passBlock scope' 0 [] b') .start) :
    Shows (fun k => (S k).execBody scope b .start) fun k => (S' k).execBody scope' b' .start := by
  intro k e z hz
  dsimp only at hz ⊢
  rw [map_seen_execBody (hS.silent k)] at hz
  obtain ⟨n, hn⟩ := seen_of_follows h hz
  refine ⟨n, fun j hj => ?_⟩
  rw [map_seen_execBody (hS.silent' j)]
  exact hn j hj

/-- So do bodies with the handler that disposes of a machine, if the calls of the disposal end
alike. -/
theorem shows_guarding {S S' : Nat → Setting σ} (hS : Serves S S')
    (hmethod : ∀ k j, (S' j).ctx.method = (S k).ctx.method)
    (hcall : ∀ k, (S k).ctx.call.Attained fun j => (S' j).ctx.call) (p : Option Provenance)
    (owner : TypeDecl) {dispose : Method} (hdispose : dispose.isHost = false) {scope scope' : Range}
    {b b' : Block} (h : Echoes (fun _ => False)
      (fun k => (S k).rounds scope [] (labelsBlock b) ((S k).passBlock scope 0 [] b) .start)
      fun k => (S' k).rounds scope' [] (labelsBlock b') ((S' k).passBlock scope' 0 [] b') .start) :
    Shows (fun k => (S k).execBody scope (guarding p owner dispose b) .start)
      fun k => (S' k).execBody scope' (guarding p owner dispose b') .start := by
  intro k e z hz
  dsimp only at hz ⊢
  rw [execBody_guarding (hS.silent k) hdispose fun o d ho => h.forth.ends (k := k) ho] at hz
  obtain ⟨⟨o, d⟩, ho, hguarded⟩ := Option.bind_eq_some_iff.mp hz
  obtain ⟨o', d', hagrees, hd, hinner⟩ := h.forth k e e o d (.refl e) ho
  have hthis : d'.activation.this = d.activation.this := by rw [hd.eq_withHeld]; rfl
  have hseen : seen (o', d') = seen (o, d) := by
    rw [seen, seen, hagrees.result_eq, hd.world_eq]
  have hown := callOwn_attained (hmethod k) (hcall k) dispose d.activation.this
  obtain ⟨n, hn⟩ := both_from hinner (guarded_attained hown hguarded)
  refine ⟨n, fun j hj => ?_⟩
  obtain ⟨hends, hdisposes⟩ := hn j hj
  dsimp only at hends
  rw [execBody_guarding (hS.silent' j) hdispose fun o d ho => h.back.ends (k := j) ho, hends,
    Option.bind_some, hseen, hthis]
  exact hdisposes

/-- A body to which markers do not matter: nothing is thrown again in it, or in the code inside the
handler that disposes of a machine. -/
inductive Inert : Block → Prop where
  | bare {b : Block} (hrethrow : rethrowsBlock b = false)
    (hunmarkable : unmarkableBlock [] [] b = true) : Inert b
  | guarding (p : Option Provenance) (owner : TypeDecl) {dispose : Method} {inner : Block}
    (hdispose : dispose.isHost = false) (hpresent : inner ≠ .absent)
    (hrethrow : rethrowsBlock inner = false) (hunmarkable : unmarkableBlock [] [] inner = true) :
    Inert (guarding p owner dispose inner)

section Rows

variable {machine machine' : Machine σ} (hhosts : machine'.hosts = machine.hosts)
  {call call' : Nat → Caller σ} (hcall : ∀ k, (call k).Attained call')
  (hcall' : ∀ k, (call' k).Attained call)

include hhosts hcall in
/-- The settings of two bodies of one method. -/
theorem serves_ofBody (method : Method) (b b' : Block) :
    Serves (fun k => .ofBody ⟨machine, call k, method⟩ .silent method b)
      fun k => .ofBody ⟨machine', call' k, method⟩ .silent method b' where
  silent _ := rfl
  silent' _ := rfl
  method _ _ := rfl
  label := ⟨_, fun _ => rfl⟩
  eval k e := eval_attained hhosts (hcall k) e

include hhosts hcall hcall' in
/-- A body to which markers do not matter shows what it shows without them, and the other way
around. -/
theorem Inert.shows {b : Block} (h : Inert b) (hb : Executable b) (method : Method)
    (scope scope' : Range) :
    Shows (fun k => (Setting.ofBody ⟨machine, call k, method⟩ .silent method b).execBody scope b
        .start)
      (fun k => (Setting.ofBody ⟨machine', call' k, method⟩ .silent method
        (unmarkBlock b)).execBody scope' (unmarkBlock b) .start) ∧
    Shows (fun k => (Setting.ofBody ⟨machine', call' k, method⟩ .silent method
        (unmarkBlock b)).execBody scope' (unmarkBlock b) .start)
      fun k => (Setting.ofBody ⟨machine, call k, method⟩ .silent method b).execBody scope b
        .start := by
  have hS := serves_ofBody hhosts hcall method b (unmarkBlock b)
  have hS' := serves_ofBody hhosts.symm hcall' method (unmarkBlock b) b
  cases h with
  | bare hrethrow hunmarkable =>
    have hechoes := echoes_body hS hS' scope scope' hrethrow hunmarkable
      fun l hl => (hb.targets l hl).1
    exact ⟨shows_execBody hS hechoes.forth, shows_execBody hS' hechoes.back⟩
  | @guarding p owner dispose inner hdispose hpresent hrethrow hunmarkable =>
    have hinner := executable_of_guarding hpresent hb
    have hechoes := echoes_body hS hS' scope scope' hrethrow hunmarkable
      fun l hl => (hinner.targets l hl).1
    exact ⟨shows_guarding hS (fun _ _ => rfl) hcall p owner hdispose hechoes,
      shows_guarding hS' (fun _ _ => rfl) hcall' p owner hdispose hechoes.symm⟩

end Rows

/-! ## Machines -/

/-- Two bodies of one method that can be executed.  Their only difference are markers, and these do
not matter to them. -/
structure SameButMarkers (x y : MethodBody) : Prop where
  symbol : x.symbol = y.symbol
  executable : Executable x.body
  executable' : Executable y.body
  inert : Inert x.body
  inert' : Inert y.body
  unmark : unmarkBlock x.body = unmarkBlock y.body

theorem SameButMarkers.symm {x y : MethodBody} (h : SameButMarkers x y) : SameButMarkers y x where
  symbol := h.symbol.symm
  executable := h.executable'
  executable' := h.executable
  inert := h.inert'
  inert' := h.inert
  unmark := h.unmark.symm

/-- Such bodies show the same. -/
theorem SameButMarkers.shows {machine machine' : Machine σ} {method : Method} {b b' : Block}
    (h : SameButMarkers ⟨method, b⟩ ⟨method, b'⟩) (hhosts : machine'.hosts = machine.hosts)
    {call call' : Nat → Caller σ} (hcall : ∀ k, (call k).Attained call')
    (hcall' : ∀ k, (call' k).Attained call) (hself : ∀ k, (call' k).Attained call')
    (scope scope' : Range) :
    Shows (fun k => (Setting.ofBody ⟨machine, call k, method⟩ .silent method b).execBody scope b
        .start)
      fun k => (Setting.ofBody ⟨machine', call' k, method⟩ .silent method b').execBody scope' b'
        .start := by
  -- From the body to the tree without markers, and from there to the other body.
  have hforth := (h.inert.shows hhosts hcall hcall' h.executable method scope scope').1
  have hback := (h.inert'.shows (rfl : machine'.hosts = machine'.hosts) hself hself h.executable'
    method scope' scope').2
  rw [← h.unmark] at hback
  exact hforth.trans hback

/-- What two machines have for a method: either it is missing on both, or it is the routine of bodies
with no other difference than markers. -/
inductive Twin (method : Method) : Except Failure Routine → Except Failure Routine → Prop where
  | error (f : Failure) : Twin method (.error f) (.error f)
  | body {b b' : Block} (h : SameButMarkers ⟨method, b⟩ ⟨method, b'⟩) :
    Twin method (.ok (routineOf method b)) (.ok (routineOf method b'))

theorem Twin.symm {method : Method} {r r' : Except Failure Routine} (h : Twin method r r') :
    Twin method r' r := by
  cases h with
  | error f => exact .error f
  | body h => exact .body h.symm

/-- Machines of which the only difference are markers. -/
structure Kindred (machine machine' : Machine σ) : Prop where
  hosts : machine'.hosts = machine.hosts
  routine : ∀ method, Twin method (machine.routine method) (machine'.routine method)

namespace Kindred

variable {machine machine' : Machine σ}

theorem symm (h : Kindred machine machine') : Kindred machine' machine where
  hosts := h.hosts.symm
  routine method := (h.routine method).symm

/-- Every call that ends on the one machine ends alike on the other, with steps enough. -/
theorem callWithin_attained (h : Kindred machine machine') (depth steps : Nat) :
    (callWithin machine steps depth).Attained fun k => callWithin machine' k depth := by
  induction depth generalizing machine machine' steps with
  | zero =>
    intro method this args w z hz
    have htwin := h.routine method
    refine ⟨0, fun k _ => ?_⟩
    dsimp only
    unfold callWithin at hz ⊢
    revert hz
    generalize machine.routine method = r at htwin
    generalize machine'.routine method = r' at htwin
    cases htwin <;> exact id
  | succ depth ih =>
    intro method this args w z hz
    have htwin := h.routine method
    generalize hr : machine.routine method = r at htwin
    generalize hr' : machine'.routine method = r' at htwin
    cases htwin with
    | error f =>
      refine ⟨0, fun k _ => ?_⟩
      dsimp only
      unfold callWithin at hz ⊢
      rw [hr] at hz
      rw [hr']
      exact hz
    | @body b b' hsame =>
      rw [callWithin_succ hr] at hz
      obtain ⟨res, w'⟩ := z
      obtain ⟨o, d, ho, rfl, rfl⟩ := execBody_of_activate hsame.executable hz
      have hself : ∀ k, (callWithin machine' k depth).Attained fun j => callWithin machine' j depth :=
        fun k method this args w z hz => ⟨k, fun j hj => callWithin_below machine' hj depth _ _ _ _ _ hz⟩
      have hshows := hsame.shows h.hosts (ih h) (ih h.symm) hself (routineOf method b).range
        (routineOf method b').range
      obtain ⟨n, hn⟩ := hshows steps ⟨{ this, args }, w⟩ (o.result, d.world)
        (congrArg (Option.map seen) ho)
      obtain ⟨⟨o', d'⟩, ho', hend⟩ := Option.map_eq_some_iff.mp (hn n (Nat.le_refl n))
      obtain ⟨i, hi⟩ := activate_of_execBody hsame.executable' ho'
      rw [show o'.result = o.result from congrArg Prod.fst hend,
        show d'.world = d.world from congrArg Prod.snd hend] at hi
      exact ⟨_, fun k hk => callWithin_of_activate hr' hi hk⟩

/-- The same of outermost calls. -/
theorem call_attained (h : Kindred machine machine') (steps : Nat) :
    (machine.call steps).Attained machine'.call :=
  h.callWithin_attained maxDepth steps

end Kindred

/-! ## Loading -/

/-- What is loaded for a method, if bodies of one list are those of the other, the markers apart. -/
theorem lookup_sameButMarkers {bodies bodies' : List MethodBody}
    (h : List.Forall₂ SameButMarkers bodies bodies') (method : Method) :
    ((entries bodies).lookup method = none ∧ (entries bodies').lookup method = none) ∨
      ∃ b b', SameButMarkers ⟨method, b⟩ ⟨method, b'⟩ ∧
        (entries bodies).lookup method = some (.ok (routineOf method b)) ∧
        (entries bodies').lookup method = some (.ok (routineOf method b')) := by
  have hentries : ∀ (x : MethodBody) (xs : List MethodBody),
      entries (x :: xs) = entries xs ++ [(x.symbol, flatten x)] := fun x xs => by simp [entries]
  induction h with
  | nil => exact .inl ⟨rfl, rfl⟩
  | @cons x y xs ys hxy _ ih =>
    rw [hentries, hentries, List.lookup_append, List.lookup_append]
    rcases ih with ⟨hnone, hnone'⟩ | ⟨b, b', hsame, hsome, hsome'⟩
    · rw [hnone, hnone', ← hxy.symbol]
      by_cases hmethod : method = x.symbol
      · subst hmethod
        refine .inr ⟨x.body, y.body, { hxy with symbol := rfl }, ?_, ?_⟩
        · rw [List.lookup_cons_self, ← hxy.executable.flatten x.symbol]
          rfl
        · rw [List.lookup_cons_self, ← hxy.executable'.flatten x.symbol, hxy.symbol]
          rfl
      · have hne : (method == x.symbol) = false := beq_false_of_ne hmethod
        simp [List.lookup_cons, hne]
    · exact .inr ⟨b, b', hsame, by rw [hsome]; rfl, by rw [hsome']; rfl⟩

/-- Loading such bodies leaves markers the only difference. -/
theorem Kindred.load {machine machine' : Machine σ} (h : Kindred machine machine')
    {bodies bodies' : List MethodBody} (hbodies : List.Forall₂ SameButMarkers bodies bodies') :
    Kindred (machine.load bodies) (machine'.load bodies') where
  hosts := h.hosts
  routine method := by
    unfold Machine.routine
    rw [load_routines, load_routines, List.lookup_append, List.lookup_append]
    rcases lookup_sameButMarkers hbodies method with ⟨hnone, hnone'⟩ | ⟨b, b', hsame, hsome, hsome'⟩
    · rw [hnone, hnone']
      exact h.routine method
    · rw [hsome, hsome']
      exact .body hsame

/-- A machine on which nothing is loaded. -/
theorem Kindred.blank (hosts : Hosts σ) : Kindred { hosts } { hosts } where
  hosts := rfl
  routine _ := .error _

/-! ## Runs with enough to work with -/

/-- What the run comes to, all runs of the row come to from some one on. -/
def Attains (x : StateT (World σ) Option α) (y : Nat → StateT (World σ) Option α) : Prop :=
  ∀ w z, x w = some z → ∃ n, ∀ k, n ≤ k → y k w = some z

namespace Attains

theorem refl (x : StateT (World σ) Option α) : Attains x fun _ => x :=
  fun _ _ h => ⟨0, fun _ _ => h⟩

theorem bind {x : StateT (World σ) Option α} {y : Nat → StateT (World σ) Option α}
    {f : α → StateT (World σ) Option β} {g : Nat → α → StateT (World σ) Option β}
    (hx : Attains x y) (hf : ∀ a, Attains (f a) fun k => g k a) :
    Attains (x >>= f) fun k => y k >>= g k := by
  intro w z hz
  obtain ⟨⟨a, v⟩, ha, hrest⟩ := Option.bind_eq_some_iff.mp hz
  obtain ⟨n, hn⟩ := both_from (hx w _ ha) (hf a v z hrest)
  exact ⟨n, fun k hk => Option.bind_eq_some_iff.mpr ⟨(a, v), hn k hk⟩⟩

/-- Only runs from some one on matter. -/
theorem congr {x : StateT (World σ) Option α} {y y' : Nat → StateT (World σ) Option α}
    (h : Attains x y) {m : Nat} (hy : ∀ k, m ≤ k → y' k = y k) : Attains x y' := by
  intro w z hz
  obtain ⟨n, hn⟩ := both_from ⟨m, hy⟩ (h w z hz)
  refine ⟨n, fun k hk => ?_⟩
  rw [(hn k hk).1]
  exact (hn k hk).2

end Attains

/-! ## Enumerators -/

/-- What state machines have in common that are the same without markers. -/
theorem members_of_unmark {sm sm' : StateMachine} (h : sm.unmark = sm'.unmark) :
    (sm.iterator = sm'.iterator ∧ sm.members = sm'.members ∧ sm.params = sm'.params) ∧
      (sm.state = sm'.state ∧ sm.current = sm'.current) ∧
      sm.moveNext.symbol = sm'.moveNext.symbol ∧ sm.dispose.symbol = sm'.dispose.symbol := by
  obtain ⟨hiterator, hmembers, hstate, hcurrent, hparams, hmoveNext, hdispose, -⟩ :=
    StateMachine.mk.inj h
  exact ⟨⟨hiterator, hmembers, hparams⟩, ⟨hstate, hcurrent⟩, (MethodBody.mk.inj hmoveNext).1,
    (MethodBody.mk.inj hdispose).1⟩

section Enumerators

variable {machine machine' : Machine σ} (h : Kindred machine machine')
  {sm sm' : StateMachine} (hsm : sm.unmark = sm'.unmark) (r : Ref)

include h hsm

/-- Calls on the one machine go as they do on the other. -/
theorem Call.run_attains (steps : Nat) (c : Call) :
    Attains (c.run machine steps ⟨sm, r⟩) fun k => c.run machine' k ⟨sm', r⟩ := by
  have hsymbol : c.symbol sm = c.symbol sm' := by
    cases c with
    | moveNext => exact (members_of_unmark hsm).2.2.1
    | dispose => exact (members_of_unmark hsm).2.2.2
  intro w z hz
  dsimp only at hz ⊢
  rw [Call.run_apply] at hz
  obtain ⟨p, hp, rfl⟩ := Option.map_eq_some_iff.mp hz
  obtain ⟨n, hn⟩ := h.call_attained steps _ _ _ _ _ hp
  refine ⟨n, fun k hk => ?_⟩
  rw [Call.run_apply, ← hsymbol, hn k hk, Option.map_some]

/-- So do calls one after the other. -/
theorem Call.runAll_attains (steps : Nat) (calls : List Call) :
    ∀ {w : World σ} {results : List (Except Failure (Option Bool) × World σ)},
      Call.runAll machine steps ⟨sm, r⟩ calls w = some results →
      ∃ n, ∀ k, n ≤ k → Call.runAll machine' k ⟨sm', r⟩ calls w = some results := by
  induction calls with
  | nil =>
    intro w results hrun
    exact ⟨0, fun _ _ => hrun⟩
  | cons c rest ih =>
    intro w results hrun
    rw [Call.runAll] at hrun
    obtain ⟨x, hcall, hrun⟩ := Option.bind_eq_some_iff.mp hrun
    obtain ⟨others, hothers, heq⟩ := Option.bind_eq_some_iff.mp hrun
    obtain ⟨n, hn⟩ := both_from (Call.run_attains h hsm r steps c w x hcall) (ih hothers)
    refine ⟨n, fun k hk => ?_⟩
    obtain ⟨hfirst, hlater⟩ := hn k hk
    rw [Call.runAll]
    exact Option.bind_eq_some_iff.mpr
      ⟨x, hfirst, Option.bind_eq_some_iff.mpr ⟨others, hlater, heq⟩⟩

theorem moveNext_attains (steps : Nat) :
    Attains (Enumerator.moveNext machine steps ⟨sm, r⟩).run
      fun k => (Enumerator.moveNext machine' k ⟨sm', r⟩).run := by
  rintro w ⟨res, w'⟩ hz
  obtain ⟨z, hcall, rfl⟩ := Enumerator.moveNext_eq_some.mp hz
  obtain ⟨n, hn⟩ := h.call_attained steps _ _ _ _ _ hcall
  rw [(members_of_unmark hsm).2.2.1] at hn
  exact ⟨n, fun k hk => Enumerator.moveNext_eq_some.mpr ⟨z, hn k hk, rfl⟩⟩

theorem dispose_attains (steps : Nat) :
    Attains (Enumerator.dispose machine steps ⟨sm, r⟩).run
      fun k => (Enumerator.dispose machine' k ⟨sm', r⟩).run := by
  rintro w ⟨res, w'⟩ hz
  obtain ⟨z, hcall, rfl⟩ := Enumerator.dispose_eq_some.mp hz
  obtain ⟨n, hn⟩ := h.call_attained steps _ _ _ _ _ hcall
  rw [(members_of_unmark hsm).2.2.2] at hn
  exact ⟨n, fun k hk => Enumerator.dispose_eq_some.mpr ⟨z, hn k hk, rfl⟩⟩

/-- An enumeration on the one machine goes as it does on the other, in which `spent` rounds have gone
by. -/
theorem enumerate_attains (o : RunOptions) (steps : Nat) : ∀ (rounds spent : Nat)
    (items : List Value), Attains (enumerate machine steps ⟨sm, r⟩ o rounds items)
      fun k => enumerate machine' k ⟨sm', r⟩ o (k - spent) items
  | 0, _, _ => by
    intro w z hz
    rw [enumerate] at hz
    cases hz
  | rounds + 1, spent, items => by
    have ih := enumerate_attains o steps rounds (spent + 1)
    have hcurrent : ∀ w : World σ, Enumerator.current w ⟨sm, r⟩ = Enumerator.current w ⟨sm', r⟩ := by
      intro w
      simp only [Enumerator.current, (members_of_unmark hsm).2.1.2]
    have hsucc : ∀ k, spent + 1 ≤ k → enumerate machine' k ⟨sm', r⟩ o (k - spent) items =
        enumerate machine' k ⟨sm', r⟩ o (k - (spent + 1) + 1) items := by
      intro k hk
      rw [show k - spent = k - (spent + 1) + 1 by omega]
    refine Attains.congr ?_ hsucc
    simp only [enumerate]
    split
    · exact (dispose_attains h hsm r steps).bind fun _ => .refl _
    · split
      · exact (dispose_attains h hsm r steps).bind fun _ => .refl _
      · refine (moveNext_attains h hsm r steps).bind fun z => ?_
        rcases z with f | _ | _
        · exact .refl _
        · exact .refl _
        · simp only [hcurrent]
          exact .bind (.refl _) fun _ => ih _

end Enumerators

/-! ## Lowered methods -/

/-- What a method has been lowered to with markers and without them, or the other way around. -/
structure Counterparts (l l' : Lowered) : Prop where
  unmark : l.unmark = l'.unmark
  bodies : List.Forall₂ SameButMarkers l.bodies l'.bodies

theorem Counterparts.symm {l l' : Lowered} (h : Counterparts l l') : Counterparts l' l where
  unmark := h.unmark.symm
  bodies := (h.bodies.imp fun _ _ => SameButMarkers.symm).flip

/-- A run that does not start says why. -/
theorem observe_refused {machine : Machine σ} {sm : StateMachine} {o : RunOptions} {w : World σ}
    {t : Trap} (hstart : Enumerator.start machine w sm o.args = .error t) (steps : Nat) :
    observe machine steps (.machine sm) o w = some ({ failure := some (.single t) }, w) := by
  have hget : ∀ k : World σ → StateT (World σ) Option Observation, (get >>= k) w = k w w :=
    fun _ => rfl
  rw [observe, hget, hstart]
  rfl

section Observations

variable {machine machine' : Machine σ} (h : Kindred machine machine') {l l' : Lowered}
  (hl : Counterparts l l')

include h

theorem callOnce_attains (steps : Nat) (method : Method) (args : List Value) :
    Attains (callOnce machine steps method args) fun k => callOnce machine' k method args := by
  simp only [callOnce]
  split
  · exact .bind (h.call_attained steps method none args) fun _ => .refl _
  · exact .refl _

include hl

/-- What is observed of a lowered method on the one machine is observed of its counterpart on the
other. -/
theorem observe_attains (steps : Nat) (o : RunOptions) :
    Attains (observe machine steps l o) fun k => observe machine' k l' o := by
  obtain ⟨hunmark, hbodies⟩ := hl
  cases l with
  | plain x =>
    cases l' with
    | machine sm' => cases hunmark
    | plain y =>
      have hsymbol : x.symbol = y.symbol := (MethodBody.mk.inj (Lowered.plain.inj hunmark)).1
      simp only [observe, hsymbol]
      exact callOnce_attains h steps y.symbol o.args
  | machine sm =>
    cases l' with
    | plain y => cases hunmark
    | machine sm' =>
      have hsm := Lowered.machine.inj hunmark
      obtain ⟨⟨hiterator, hmembers, hparams⟩, ⟨hstate, -⟩, -⟩ := members_of_unmark hsm
      intro w z hz
      have hstart := start_eq machine w sm o.args
      have hstart' := start_eq machine' w sm' o.args
      rw [← hparams, ← hiterator] at hstart'
      split at hstart
      · rename_i hlength
        rw [if_pos hlength] at hstart'
        rw [observe_machine hstart] at hz
        obtain ⟨x, hx, rfl⟩ := Option.map_eq_some_iff.mp hz
        have hinstance : newest w sm' = ⟨sm', (newest w sm).object⟩ := by
          simp only [newest, hmembers]
        have hfields : newFields sm' o.args = newFields sm o.args := by
          simp only [newFields, hparams, hstate]
        rw [hinstance, hfields] at hstart'
        obtain ⟨n, hn⟩ := enumerate_attains (h.load hbodies) hsm (newest w sm).object o steps steps 0
          [] _ x hx
        have hrun : ∀ k, n ≤ k → enumerate (machine'.load sm'.methods) k
            ⟨sm', (newest w sm).object⟩ o k [] (grown w (newFields sm o.args)) = some x := hn
        refine ⟨n, fun k hk => (observe_machine hstart' k).trans ?_⟩
        rw [hrun k hk]
        simp only [Option.map_some, Enumerator.state, newest, hstate]
      · rename_i hlength
        rw [if_neg hlength] at hstart'
        rw [observe_refused hstart] at hz
        exact ⟨0, fun k _ => (observe_refused hstart' k).trans hz⟩

end Observations

end Resumable.Session
