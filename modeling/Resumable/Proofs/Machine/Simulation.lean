import Resumable.Proofs.Machine.Layout

/-!
# From flows to runs

A flow ends in an outcome, and the machine goes on from there: at the place behind, or through
the regions around it.  `Setting.after` is that continuation, and `Implements` says that a run of
the machine is a flow followed by the continuation of its outcome, with fewer steps left.  Flows
are put together in a few ways (in a row, in rounds, with what becomes of an outcome), and each of
these ways keeps the relation.
-/

set_option autoImplicit false

namespace Resumable.Machine

open Resumable.Symbol Resumable.Tree

variable {σ : Type}

/-! ## Limits -/

namespace Flow

/-- With more to work with a flow keeps its outcomes. -/
def Below (x y : Flow σ) : Prop := ∀ c z, x c = some z → y c = some z

theorem limit_eq_some {x : Nat → Flow σ} (h : ∀ n, Below (x n) (x (n + 1))) {c : Config σ}
    {z : Outcome × Config σ} : limit x c = some z ↔ ∃ n, x n c = some z := by
  have hle : ∀ n k, Below (x n) (x (n + k)) := by
    intro n k
    induction k with
    | zero => exact fun _ _ h => h
    | succ k ih => exact fun c z hz => h _ c z (ih c z hz)
  have hunique : ∀ n k y y', x n c = some y → x k c = some y' → y = y' := by
    intro n k y y' hy hy'
    have h1 := hle n k c y hy
    have h2 := hle k n c y' hy'
    rw [Nat.add_comm k n, h1] at h2
    exact Option.some.inj h2
  unfold limit
  constructor
  · intro hz
    split at hz
    · rename_i hex
      obtain ⟨n, hn⟩ := hex.choose_spec
      exact ⟨n, by rw [hn, hz]⟩
    · cases hz
  · rintro ⟨n, hn⟩
    have hex : ∃ z n, x n c = some z := ⟨z, n, hn⟩
    rw [dif_pos hex]
    obtain ⟨k, hk⟩ := hex.choose_spec
    exact congrArg some (hunique k n _ _ hk hn)

theorem andThen_eq_some {x : Flow σ} {k : Outcome → Flow σ} {c : Config σ}
    {z : Outcome × Config σ} :
    x.andThen k c = some z ↔ ∃ o d, x c = some (o, d) ∧ k o d = some z := by
  unfold andThen
  rw [Option.bind_eq_some_iff]
  exact ⟨fun ⟨⟨o, d⟩, h, h'⟩ => ⟨o, d, h, h'⟩, fun ⟨o, d, h, h'⟩ => ⟨(o, d), h, h'⟩⟩

end Flow

/-! ## Rounds -/

namespace Entry

theorem staying?_eq_none {near labels : List (Option Label)} {l : Option Label} :
    staying? near labels l = none ↔ l ∉ labels ∧ l ∉ near := by
  unfold staying?
  by_cases hl : l ∈ labels
  · simp [hl]
  · by_cases hnear : l ∈ near <;> simp [hl, hnear]

theorem staying?_eq_some {near labels : List (Option Label)} {l : Option Label} {e : Entry}
    (h : staying? near labels l = some e) :
    (l ∈ labels ∧ e = .seek l) ∨ (l ∈ near ∧ e = .start) := by
  unfold staying? at h
  split at h
  · rename_i hl
    exact .inl ⟨hl, (Option.some.inj h).symm⟩
  · split at h
    · rename_i hnear
      exact .inr ⟨hnear, (Option.some.inj h).symm⟩
    · cases h

theorem staying?_enters {near labels : List (Option Label)} {l : Option Label} {e : Entry}
    (h : staying? near labels l = some e) : e.enters labels = true := by
  rcases staying?_eq_some h with ⟨hl, rfl⟩ | ⟨-, rfl⟩
  · simp [enters, hl]
  · rfl

end Entry

namespace Setting

section Rounds

variable {S : Setting σ} {scope : Range} {near labels : List (Option Label)}
  {part : Entry → Flow σ}

theorem again_below {next next' : Entry → Flow σ} (h : ∀ e, Flow.Below (next e) (next' e))
    (o : Outcome) :
    Flow.Below (S.again scope near labels next o) (S.again scope near labels next' o) := by
  intro c z hz
  cases o with
  | jump pc l =>
    cases hstay : Entry.staying? near labels l with
    | some e =>
      simp only [again, hstay] at hz ⊢
      exact h e _ _ hz
    | none =>
      simp only [again, hstay] at hz ⊢
      exact hz
  | _ => exact hz

theorem roundsUpTo_succ_below (n : Nat) (e : Entry) :
    Flow.Below (S.roundsUpTo scope near labels part n e)
      (S.roundsUpTo scope near labels part (n + 1) e) := by
  induction n generalizing e with
  | zero => exact fun _ _ h => nomatch h
  | succ n ih =>
    intro c z hz
    obtain ⟨o, d, hpart, hrest⟩ := Flow.andThen_eq_some.mp hz
    exact Flow.andThen_eq_some.mpr ⟨o, d, hpart, again_below ih o d z hrest⟩

theorem rounds_eq_some {e : Entry} {c : Config σ} {z : Outcome × Config σ} :
    S.rounds scope near labels part e c = some z ↔
      ∃ n, S.roundsUpTo scope near labels part n e c = some z :=
  Flow.limit_eq_some fun n => roundsUpTo_succ_below n e

/-- Rounds begin with one round. -/
theorem rounds_eq (e : Entry) :
    S.rounds scope near labels part e =
      (part e).andThen (S.again scope near labels (S.rounds scope near labels part)) := by
  funext c
  apply Option.ext
  intro z
  rw [rounds_eq_some, Flow.andThen_eq_some]
  constructor
  · rintro ⟨n, hn⟩
    cases n with
    | zero => cases hn
    | succ n =>
      obtain ⟨o, d, hpart, hrest⟩ := Flow.andThen_eq_some.mp hn
      refine ⟨o, d, hpart, again_below (fun e c z h => ?_) o d z hrest⟩
      exact rounds_eq_some.mpr ⟨n, h⟩
  · rintro ⟨o, d, hpart, hrest⟩
    have finish : ∀ n, S.again scope near labels (S.roundsUpTo scope near labels part n) o d =
        some z → ∃ n, S.roundsUpTo scope near labels part n e c = some z :=
      fun n h => ⟨n + 1, Flow.andThen_eq_some.mpr ⟨o, d, hpart, h⟩⟩
    cases o with
    | jump pc l =>
      cases hstay : Entry.staying? near labels l with
      | some e =>
        simp only [again, hstay] at hrest finish
        obtain ⟨n, hn⟩ := rounds_eq_some.mp hrest
        exact finish n hn
      | none =>
        simp only [again, hstay] at hrest finish
        exact finish 0 hrest
    | _ => exact finish 0 hrest

/-- Rounds do not end in a jump that stays. -/
theorem rounds_jump {e : Entry} {c d : Config σ} {pc : Nat} {l : Option Label}
    (h : S.rounds scope near labels part e c = some (.jump pc l, d)) :
    l ∉ labels ∧ l ∉ near := by
  obtain ⟨n, hn⟩ := rounds_eq_some.mp h
  clear h
  induction n generalizing e c with
  | zero => cases hn
  | succ n ih =>
    obtain ⟨o, d', -, hrest⟩ := Flow.andThen_eq_some.mp hn
    cases o with
    | jump pc' l' =>
      cases hstay : Entry.staying? near labels l' with
      | some e =>
        simp only [again, hstay] at hrest
        exact ih hrest
      | none =>
        simp only [again, hstay] at hrest
        cases hrest
        exact Entry.staying?_eq_none.mp hstay
    | _ => cases hrest

end Rounds

/-! ## What comes behind a flow -/

/-- The machine runs from a position on. -/
abbrev run (S : Setting σ) (r : Routine) (scope : Range) (pc n : Nat) : Act σ Halt :=
  S.observer.run S.ctx r n scope pc

/-- The finallys of the routine, with `n` steps for each run. -/
abbrev clean (S : Setting σ) (r : Routine) (n : Nat) : Cleaner σ :=
  cleaner r.method (S.observer.run S.ctx r n)

/-- Where an outcome leads from inside the regions `around`; `behind` is the place behind. -/
def exits (S : Setting σ) (r : Routine) (scope : Range) (around : List Region) (behind n : Nat) :
    Outcome → Act σ Going
  | .normal => return .goto behind
  | .jump pc l => do
    match ← transfer (S.clean r n) scope pc (some (S.label l)) around with
    | some next => return .goto next
    | none => return .goto (S.label l)
  | .ret pc v => do
    match ← transfer (S.clean r n) scope pc none around with
    | some next => return .goto next
    | none => return .halt (.returned v)
  | .fail pc f => do return .goto (← unwind (S.clean r n) scope pc f around)
  | .suspend pc v => return .halt (.suspended v (pc + 1))
  | .stop result => do return .halt (← Act.ofExcept result)

/-- Go on where a step leads. -/
def goOn (S : Setting σ) (r : Routine) (scope : Range) (n : Nat) : Going → Act σ Halt
  | .goto pc => S.run r scope pc n
  | .halt h => return h

/-- What the machine does behind an outcome. -/
def after (S : Setting σ) (r : Routine) (scope : Range) (around : List Region) (behind n : Nat)
    (o : Outcome) : Act σ Halt :=
  S.exits r scope around behind n o >>= S.goOn r scope n

section After

variable {S : Setting σ} {r : Routine} {scope : Range} {around : List Region} {behind n : Nat}

theorem run_succ {pc : Nat} {instr : Instr Nat} (hscope : scope.covers pc = true)
    (hcode : r.instrs[pc]? = some instr) (c : Config σ) :
    S.run r scope pc (n + 1) c =
      (S.observer.step S.ctx r (S.clean r n) scope pc instr >>= S.goOn r scope n)
        (S.observer.note pc c) := by
  unfold run Observer.run
  rw [if_pos hscope, hcode]
  dsimp only
  refine congrFun (a := S.observer.note pc c) ?_
  refine bind_congr (m := Act σ) fun going => ?_
  cases going <;> rfl

theorem run_outside {pc : Nat} (hscope : scope.covers pc = false) (c : Config σ) :
    S.run r scope pc (n + 1) c =
      some (.error (.single (.leftRegion r.method.fullName pc)), c) := by
  unfold run Observer.run
  rw [if_neg (by simp [hscope])]
  rfl

theorem run_mono {pc m : Nat} (h : m ≤ n) :
    (S.run r scope pc m).Below (S.run r scope pc n) :=
  S.observer.run_below (.refl _) r h scope pc

theorem clean_mono {m : Nat} (h : m ≤ n) : Cleaner.Below (S.clean r m) (S.clean r n) :=
  fun _ => .bind (run_mono h) fun _ => .refl _

theorem after_mono {m : Nat} (h : m ≤ n) (o : Outcome) :
    (S.after r scope around behind m o).Below (S.after r scope around behind n o) := by
  refine .bind ?_ fun going => ?_
  · cases o with
    | normal => exact .refl _
    | jump pc l => exact .bind (transfer_below (clean_mono h) scope pc _ around) fun _ => .refl _
    | ret pc v => exact .bind (transfer_below (clean_mono h) scope pc _ around) fun _ => .refl _
    | fail pc f => exact .bind (unwind_below (clean_mono h) scope pc around f) fun _ => .refl _
    | suspend pc v => exact .refl _
    | stop result => exact .refl _
  · cases going with
    | goto pc => exact run_mono h
    | halt h => exact .refl _

theorem after_normal : S.after r scope around behind n .normal = S.run r scope behind n := by
  unfold after exits
  rw [pure_bind]
  rfl

/-- The place behind matters only to a flow that comes to its end. -/
theorem after_of_ne {o : Outcome} (ho : o ≠ .normal) (behind' : Nat) :
    S.after r scope around behind n o = S.after r scope around behind' n o := by
  cases o with
  | normal => exact absurd rfl ho
  | _ => rfl

end After

end Setting

/-! ## Implementations of flows -/

/-- A run of the machine, given `n` steps, does what a flow does and goes on behind its outcome
with no more steps than it had.  A strict run has fewer of them, unless it only comes to the end
of the flow. -/
structure Implements (S : Setting σ) (r : Routine) (defined : List (Option Label)) (scope : Range)
    (strict : Prop) (x : Nat → Act σ Halt) (flow : Flow σ) (around : List Region)
    (behind : Nat) : Prop where
  sound : ∀ n c z, x n c = some z → ∃ o d m, flow c = some (o, d) ∧ m ≤ n ∧
    (strict → o ≠ .normal → m < n) ∧ S.after r scope around behind m o d = some z
  complete : ∀ c o d n z, flow c = some (o, d) → S.after r scope around behind n o d = some z →
    ∃ m, x m c = some z
  aims : ∀ c pc l d, flow c = some (.jump pc l, d) → l ∈ defined

namespace Implements

variable {S : Setting σ} {r : Routine} {defined : List (Option Label)} {scope : Range}
  {x : Nat → Act σ Halt} {flow : Flow σ} {around around' : List Region} {behind behind' : Nat}

/-- An outcome that goes on from inside the same regions is left as it is. -/
theorem done {o : Outcome} (ho : o ≠ .normal) (haims : ∀ pc l, o = .jump pc l → l ∈ defined) :
    Implements S r defined scope (o = .normal) (fun n => S.after r scope around behind n o)
      (.done o) around behind' where
  sound n c z h := by
    refine ⟨o, c, n, rfl, Nat.le_refl n, fun h => absurd h ho, ?_⟩
    rw [Setting.after_of_ne ho behind]
    exact h
  complete c o' d n z hflow h := by
    cases hflow
    refine ⟨n, ?_⟩
    rw [Setting.after_of_ne ho behind']
    exact h
  aims c pc l d h := by
    cases h
    exact haims pc l rfl

/-- A flow, and then what becomes of its outcome. -/
theorem andThen {next : Outcome → Flow σ}
    (hflow : Implements S r defined scope True x flow around behind)
    (hnext : ∀ c o d, flow c = some (o, d) →
      Implements S r defined scope (o = .normal)
        (fun n => S.after r scope around behind n o) (next o) around' behind') :
    Implements S r defined scope True x (flow.andThen next) around' behind' where
  sound n c z h := by
    obtain ⟨o, d, m, hd, hm, hstrict, hafter⟩ := hflow.sound n c z h
    obtain ⟨o', d', m', hd', hm', hstrict', hafter'⟩ := (hnext c o d hd).sound m d z hafter
    refine ⟨o', d', m', Flow.andThen_eq_some.mpr ⟨o, d, hd, hd'⟩, by omega, fun _ ho' => ?_,
      hafter'⟩
    by_cases ho : o = .normal
    · have := hstrict' ho ho'
      omega
    · have := hstrict trivial ho
      omega
  complete c o' d' n z hz h := by
    obtain ⟨o, d, hd, hd'⟩ := Flow.andThen_eq_some.mp hz
    obtain ⟨m, hm⟩ := (hnext c o d hd).complete d o' d' n z hd' h
    exact hflow.complete c o d m z hd hm
  aims c pc l d' hz := by
    obtain ⟨o, d, hd, hd'⟩ := Flow.andThen_eq_some.mp hz
    exact (hnext c o d hd).aims d pc l d' hd'

/-- One flow behind another. -/
theorem onNormal {next : Flow σ}
    (hflow : Implements S r defined scope True x flow around behind)
    (hnext : Implements S r defined scope True (S.run r scope behind) next around behind') :
    Implements S r defined scope True x (flow.onNormal next) around behind' := by
  refine hflow.andThen fun c o d hd => ?_
  by_cases ho : o = .normal
  · subst ho
    simp only [Setting.after_normal]
    exact ⟨fun n c z h => by simpa using hnext.sound n c z h, hnext.complete, hnext.aims⟩
  · have hdone : Implements S r defined scope (o = .normal)
        (fun n => S.after r scope around behind n o) (.done o) around behind' := by
      refine .done ho fun pc l hjump => ?_
      subst hjump
      exact hflow.aims c pc l d hd
    cases o with
    | normal => exact absurd rfl ho
    | _ => exact hdone

/-- Nothing is done. -/
theorem skip : Implements S r defined scope True (S.run r scope behind) (.done .normal) around
    behind where
  sound n c z h :=
    ⟨.normal, c, n, rfl, Nat.le_refl n, fun _ h => absurd rfl h, by rwa [Setting.after_normal]⟩
  complete c o d n z hflow h := by
    cases hflow
    rw [Setting.after_normal] at h
    exact ⟨n, h⟩
  aims c pc l d h := by cases h

end Implements

/-! ## Rounds of the machine -/

/-- A jump whose target is inside the innermost region around it leaves no region. -/
theorem transfer_stay {clean : Cleaner σ} {scope : Range} {pc target : Nat}
    {around : List Region} (h : ∀ g ∈ around, g.guarded.covers target = true) (c : Config σ) :
    transfer clean scope pc (some target) around c =
      some (.ok (some target), c.leave scope pc (some target)) := by
  cases around with
  | nil => rfl
  | cons g outer =>
    have hg : g.isLeft (some target) = false := by
      simp [Region.isLeft, h g List.mem_cons_self]
    unfold transfer
    rw [hg]
    rfl

theorem Setting.after_jump_stay {S : Setting σ} {r : Routine} {scope : Range}
    {around : List Region} {behind n pc : Nat} {l : Option Label}
    (h : ∀ g ∈ around, g.guarded.covers (S.label l) = true) (c : Config σ) :
    S.after r scope around behind n (.jump pc l) c =
      S.run r scope (S.label l) n (c.leave scope pc (some (S.label l))) := by
  unfold after exits
  rw [bind_assoc, Act.bind_apply, transfer_stay h]
  rfl

/-- Rounds of a part, each of which is entered at the position of its entry. -/
theorem Implements.rounds {S : Setting σ} {r : Routine} {defined labels : List (Option Label)}
    (near : List (Option Label)) {scope : Range} {part : Entry → Flow σ} {around : List Region}
    {pc behind : Nat}
    (hpart : ∀ e, e.enters labels = true →
      Implements S r defined scope True (S.run r scope (S.entry pc e)) (part e) around behind)
    (hlabels : ∀ l ∈ labels, ∀ g ∈ around, g.guarded.covers (S.label l) = true)
    (hnear : ∀ l ∈ near, S.label l = pc ∧ ∀ g ∈ around, g.guarded.covers (S.label l) = true)
    (e : Entry) (he : e.enters labels = true) :
    Implements S r defined scope True (S.run r scope (S.entry pc e))
      (S.rounds scope near labels part e) around behind := by
  have hstay : ∀ l e', Entry.staying? near labels l = some e' →
      S.entry pc e' = S.label l ∧ ∀ g ∈ around, g.guarded.covers (S.label l) = true := by
    intro l e' h
    rcases Entry.staying?_eq_some h with ⟨hl, rfl⟩ | ⟨hl, rfl⟩
    · exact ⟨rfl, hlabels l hl⟩
    · exact ⟨(hnear l hl).1.symm, (hnear l hl).2⟩
  refine ⟨?_, ?_, ?_⟩
  · -- Each round that goes on has fewer steps left than the one before.
    intro n
    induction n using Nat.strongRecOn generalizing e with
    | ind n ih =>
      intro c z h
      obtain ⟨o, d, m, hd, hm, hstrict, hafter⟩ := (hpart e he).sound n c z h
      have finish : Setting.again S scope near labels (S.rounds scope near labels part) o d =
          some (o, d) → ∃ o' d' m', S.rounds scope near labels part e c = some (o', d') ∧ m' ≤ n ∧
            (True → o' ≠ .normal → m' < n) ∧
            S.after r scope around behind m' o' d' = some z := by
        intro hagain
        refine ⟨o, d, m, ?_, hm, hstrict, hafter⟩
        rw [Setting.rounds_eq]
        exact Flow.andThen_eq_some.mpr ⟨o, d, hd, hagain⟩
      cases o with
      | jump pc' l =>
        cases hl : Entry.staying? near labels l with
        | none => exact finish (by simp only [Setting.again, hl]; rfl)
        | some e' =>
          obtain ⟨hentry, hcovers⟩ := hstay l e' hl
          have hlt := hstrict trivial (by simp)
          rw [Setting.after_jump_stay hcovers, ← hentry] at hafter
          obtain ⟨o', d', m', hd', hm', hstrict', hafter'⟩ :=
            ih m hlt e' (Entry.staying?_enters hl) _ _ hafter
          refine ⟨o', d', m', ?_, by omega, fun _ _ => by omega, hafter'⟩
          rw [Setting.rounds_eq]
          refine Flow.andThen_eq_some.mpr ⟨_, d, hd, ?_⟩
          simp only [Setting.again, hl]
          rw [hentry] at hd'
          exact hd'
      | _ => exact finish rfl
  · intro c o d n z hflow hafter
    obtain ⟨k, hk⟩ := Setting.rounds_eq_some.mp hflow
    clear hflow
    induction k generalizing e c with
    | zero => cases hk
    | succ k ih =>
      obtain ⟨o', d', hd', hrest⟩ := Flow.andThen_eq_some.mp hk
      cases o' with
      | jump pc' l =>
        cases hl : Entry.staying? near labels l with
        | none =>
          simp only [Setting.again, hl] at hrest
          cases hrest
          exact (hpart e he).complete c _ _ n z hd' hafter
        | some e' =>
          simp only [Setting.again, hl] at hrest
          obtain ⟨hentry, hcovers⟩ := hstay l e' hl
          obtain ⟨m, hm⟩ := ih e' (Entry.staying?_enters hl) _ hrest
          refine (hpart e he).complete c _ d' m z hd' ?_
          rw [Setting.after_jump_stay hcovers, ← hentry]
          rw [hentry] at hm ⊢
          exact hm
      | _ =>
        cases hrest
        exact (hpart e he).complete c _ _ n z hd' hafter
  · intro c pc' l d hflow
    obtain ⟨k, hk⟩ := Setting.rounds_eq_some.mp hflow
    clear hflow
    induction k generalizing e c with
    | zero => cases hk
    | succ k ih =>
      obtain ⟨o', d', hd', hrest⟩ := Flow.andThen_eq_some.mp hk
      cases o' with
      | jump pc'' l' =>
        cases hl : Entry.staying? near labels l' with
        | none =>
          simp only [Setting.again, hl] at hrest
          cases hrest
          exact (hpart e he).aims c _ _ _ hd'
        | some e' =>
          simp only [Setting.again, hl] at hrest
          exact ih e' (Entry.staying?_enters hl) _ hrest
      | _ => cases hrest

end Resumable.Machine
