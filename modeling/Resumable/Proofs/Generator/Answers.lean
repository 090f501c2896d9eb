import Resumable.Proofs.Generator.Housed
import Resumable.Proofs.Generator.Reference
import Resumable.Proofs.Session.Disposal

/-!
# Outcomes that answer each other

A part of a generator and what becomes of it in a state machine, executed side by side.  The machine
has the finallys of its frames run by its disposal, after the failure that the part ends in, so its
part answers that of the generator if it does with this disposal (`Answers`).  Where nothing
suspends, no frame is there, and the outcomes are the same but for the labels of jumps
(`Matched`).
-/

set_option autoImplicit false

namespace Resumable.Machine

open Resumable.Symbol Resumable.Tree Resumable.Source Resumable.StateMachine Resumable.Lowering

variable {σ α : Type}

/-- Which label of the machine a jump goes to in the place of a label of the generator. -/
abbrev Jumps := Option Label → Option Label → Prop

/-! ## Parts without suspensions -/

/-- Neither part ends, or both end alike in configurations that `R` relates. -/
inductive Matched (R : Config σ → Config σ → Prop) (J : Jumps) :
    Option (Outcome × Config σ) → Option (Outcome × Config σ) → Prop where
  | unended : Matched R J none none
  | normal {a d : Config σ} (h : R a d) : Matched R J (some (.normal, a)) (some (.normal, d))
  | jump {p q : Nat} {l k : Option Label} {a d : Config σ} (hlabel : J l k) (h : R a d) :
    Matched R J (some (.jump p l, a)) (some (.jump q k, d))
  | fail {p q : Nat} {f : Failure} {a d : Config σ} (h : R a d) :
    Matched R J (some (.fail p f, a)) (some (.fail q f, d))

namespace Matched

variable {R R' : Config σ → Config σ → Prop} {J J' : Jumps} {x y : Flow σ} {a d : Config σ}

theorem mono {p q : Option (Outcome × Config σ)} (h : Matched R J p q) (hR : ∀ a d, R a d → R' a d)
    (hJ : ∀ l k, J l k → J' l k) : Matched R' J' p q := by
  cases h with
  | unended => exact .unended
  | normal h => exact .normal (hR _ _ h)
  | jump hlabel h => exact .jump (hJ _ _ hlabel) (hR _ _ h)
  | fail h => exact .fail (hR _ _ h)

/-- A step whose failures come from an instruction. -/
theorem effect {u v : Act σ α} {g h : α → Outcome} (huv : u.Agree R v) (hgh : ∀ z a d, R a d →
    Matched R J (some (g z, a)) (some (h z, d))) (pc pc' : Nat) (had : R a d) :
    Matched R J (Flow.effect pc u g a) (Flow.effect pc' v h d) := by
  have hagree := huv a d had
  unfold Flow.effect
  generalize u a = p, v d = q at hagree
  cases hagree with
  | unended => exact .unended
  | @ended result a' d' h' =>
    cases result with
    | ok z => exact hgh z a' d' h'
    | error f => exact .fail h'

/-- One part, and then what becomes of its outcome. -/
theorem andThen (h : Matched R J (x a) (y d)) {k k' : Outcome → Flow σ}
    (hk : ∀ o o' a d, Matched R J (some (o, a)) (some (o', d)) → Matched R' J' (k o a) (k' o' d)) :
    Matched R' J' (x.andThen k a) (y.andThen k' d) := by
  unfold Flow.andThen
  generalize x a = p, y d = q at h
  cases h with
  | unended => exact .unended
  | normal h => exact hk _ _ _ _ (.normal h)
  | jump hlabel h => exact hk _ _ _ _ (.jump hlabel h)
  | fail h => exact hk _ _ _ _ (.fail h)

end Matched

/-! ## Ways out of a try -/

section Ways

variable {S S' : Setting σ} {R : Config σ → Config σ → Prop} {J : Jumps}

/-- What handlers hold does not matter to the relation. -/
def Careless (R : Config σ → Config σ → Prop) : Prop :=
  ∀ a d, R a d → ∀ xs ys, R { a with activation := { a.activation with caught := xs } }
    { d with activation := { d.activation with caught := ys } }

theorem Careless.leave (hR : Careless R) {a d : Config σ} (h : R a d) (scope scope' : Range)
    (p p' : Nat) (target target' : Option Nat) :
    R (a.leave scope p target) (d.leave scope' p' target') := hR a d h _ _

/-- Nothing is noted. -/
def Setting.Unobserved (S : Setting σ) : Prop := ∀ pc c, S.observer.note pc c = c

/-- A finally on the way out. -/
theorem Matched.cleaning {clean clean' : Option (Act σ Unit)}
    (hclean : Option.Rel (fun x y => Act.Agree R x y) clean clean') {o o' : Outcome}
    {failed failed' : Failure → Outcome} {a d : Config σ} (hR : R a d)
    (hdone : ∀ a d, R a d → Matched R J (some (o, a)) (some (o', d)))
    (hfailed : ∀ g a d, R a d → Matched R J (some (failed g, a)) (some (failed' g, d))) :
    Matched R J (Setting.cleaning clean o failed a) (Setting.cleaning clean' o' failed' d) := by
  cases hclean with
  | none => exact hdone a d hR
  | some hagree =>
    have hact := hagree a d hR
    unfold Setting.cleaning
    rename_i x y
    dsimp only
    generalize x a = p, y d = q at hact
    cases hact with
    | unended => exact .unended
    | @ended result a' d' h' =>
      cases result with
      | ok u => exact hdone _ _ h'
      | error g => exact hfailed g _ _ h'

/-- What becomes of an outcome of a try block. -/
theorem Matched.exitTry (hS : S.Unobserved) (hS' : S'.Unobserved) (hR : Careless R)
    {scope scope' : Range} {handlers handlers' : List Handler} {handler handler' : Flow σ}
    {clean clean' : Option (Act σ Unit)} {last last' behind behind' : Nat}
    (hclean : Option.Rel (fun x y => Act.Agree R x y) clean clean')
    (hhandlers : handlers = [] ∧ handlers' = [] ∨ ∃ h rest h' rest', handlers = h :: rest ∧
      handlers' = h' :: rest' ∧ ∀ p p' f a d, R a d →
        Matched R J (handler (a.handle scope p f h)) (handler' (d.handle scope' p' f h')))
    {o o' : Outcome} {a d : Config σ} (h : Matched R J (some (o, a)) (some (o', d))) :
    Matched R J (S.exitTry scope handlers handler clean last behind o a)
      (S'.exitTry scope' handlers' handler' clean' last' behind' o' d) := by
  cases h with
  | normal h =>
    simp only [Setting.exitTry, Setting.noting, hS last a, hS' last' d]
    have hdone : Matched R J (Setting.cleaning clean .normal (.fail last) a)
        (Setting.cleaning clean' .normal (.fail last') d) :=
      .cleaning hclean h (fun _ _ => .normal) fun _ _ _ => .fail
    refine hdone.andThen fun o o' a d hod => ?_
    cases hod with
    | normal h => exact .normal (hR.leave h ..)
    | jump hlabel h => exact .jump hlabel h
    | fail h => exact .fail h
  | jump hlabel h =>
    exact .cleaning hclean h (fun _ _ => .jump hlabel) fun _ _ _ => .fail
  | fail h =>
    rcases hhandlers with ⟨rfl, rfl⟩ | ⟨g, rest, g', rest', rfl, rfl, hhandler⟩
    · exact .cleaning hclean h (fun _ _ => .fail) fun _ _ _ => .fail
    · exact hhandler _ _ _ _ _ h

/-- What becomes of an outcome of a handler. -/
theorem Matched.exitCatch (hS : S.Unobserved) (hS' : S'.Unobserved) (hR : Careless R)
    (scope scope' : Range) (last last' behind behind' : Nat) {o o' : Outcome} {a d : Config σ}
    (h : Matched R J (some (o, a)) (some (o', d))) :
    Matched R J (S.exitCatch scope last behind o a)
      (S'.exitCatch scope' last' behind' o' d) := by
  cases h with
  | normal h =>
    simp only [Setting.exitCatch, hS _ _, hS' _ _]
    exact .normal (hR.leave (hR _ _ h _ _) ..)
  | jump hlabel h => exact .jump hlabel h
  | fail h => exact .fail h

/-- A finally as a scope of its own, out of which no jump leads. -/
theorem Matched.settle (hS : S.Unobserved) (hS' : S'.Unobserved) (hR : Careless R)
    (scope scope' : Range) {x y : Flow σ}
    (h : ∀ a d, R a d → Matched R (fun _ _ => False) (x a) (y d)) :
    Act.Agree R (S.settle scope x) (S'.settle scope' y) := by
  intro a d had
  have hxy := h a d had
  unfold Setting.settle
  generalize x a = p, y d = q at hxy
  cases hxy with
  | unended => exact .unended
  | normal h =>
    simp only [Option.bind_some, Setting.close, Act.bind_apply, hS _ _, hS' _ _]
    exact .ended h
  | jump hlabel => exact hlabel.elim
  | fail h =>
    simp only [Option.bind_some, Setting.close, Act.bind_apply, leave_apply]
    exact .ended (hR.leave h ..)

end Ways

/-! ## Parts that may suspend -/

/-- What two executions are compared by: where the variables are, the instance of the machine, how
its disposal calls the finallys, and where the generator goes on behind a suspension. -/
structure Pairing (σ : Type) where
  house : House
  ref : Ref
  clean : Caller σ
  resume : Int → Nat

namespace Pairing

/-- In the state `s`, the configuration of the machine stands for that of the generator. -/
abbrev Has (P : Pairing σ) (strays : List Local) (s : Int) : Config σ → Config σ → Prop :=
  Represents P.house P.ref strays s

theorem careless (P : Pairing σ) (strays : List Local) (s : Int) : Careless (P.Has strays s) :=
  fun _ _ h => h.of_caught

end Pairing

/-- The end of a part of the machine, in the frame `st` with the contents `c`, answers that of the
part of the generator: it is the same, a suspension returns in its own state, and after a failure the
finallys of the frames inside that are live run as they have run in the generator. -/
inductive Answers (P : Pairing σ) (J : Jumps) (strays : List Local) (st : Int) (c : Contents) :
    Option (Outcome × Config σ) → Option (Outcome × Config σ) → Prop where
  | unended : Answers P J strays st c none none
  | normal {a d : Config σ} (h : P.Has strays st a d) :
    Answers P J strays st c (some (.normal, a)) (some (.normal, d))
  | jump {p q : Nat} {l k : Option Label} {a d : Config σ} (hlabel : J l k)
    (h : P.Has strays st a d) :
    Answers P J strays st c (some (.jump p l, a)) (some (.jump q k, d))
  | suspend {p q : Nat} {v : Value} {s : Int} {a d : Config σ} (hs : s ∈ c.resumeStates)
    (hplace : P.resume s = p + 1) (h : P.Has [] s a d)
    (hvalue : d.world.get P.ref P.house.current = v) :
    Answers P J strays st c (some (.suspend p v, a)) (some (.ret q (.bool true), d))
  | fail {p q : Nat} {f : Failure} {gs : List Failure} {s : Int} {w : World σ} {a d : Config σ}
    (hs : s ∈ st :: c.states) (hreads : d.world.Reads P.ref P.house.state (.int s))
    (hclean : runCleanups P.clean P.ref (liveFrames c.children s) d.world = some (gs, w))
    (h : P.Has strays st a { d with world := w }) :
    Answers P J strays st c (some (.fail p (gs.foldl Failure.append f), a)) (some (.fail q f, d))
  /-- The finallys do not come to their end. -/
  | stuck {q : Nat} {f : Failure} {s : Int} {d : Config σ} (hs : s ∈ st :: c.states)
    (hreads : d.world.Reads P.ref P.house.state (.int s))
    (hclean : runCleanups P.clean P.ref (liveFrames c.children s) d.world = none) :
    Answers P J strays st c none (some (.fail q f, d))

namespace Answers

variable {P : Pairing σ} {J J' : Jumps} {strays strays' : List Local} {st : Int}
  {c c' : Contents} {x x' y y' : Flow σ} {a d : Config σ}

/-- Where no frame is inside, a failure needs no disposal. -/
theorem fail_outside {p q : Nat} {f : Failure} (hst : st ∉ Frame.liveStatesAll c.children)
    (h : P.Has strays st a d) :
    Answers P J strays st c (some (.fail p f, a)) (some (.fail q f, d)) := by
  have hnone : runCleanups P.clean P.ref (liveFrames c.children st) d.world = some ([], d.world) := by
    rw [liveFrames_outside hst]
    rfl
  show Answers P J strays st c (some (.fail p ([].foldl Failure.append f), a)) _
  exact .fail List.mem_cons_self h.state hnone h

/-- A part without suspensions answers if it is matched. -/
theorem of_matched {p q : Option (Outcome × Config σ)} (h : Matched (P.Has strays st) J p q)
    (hst : st ∉ Frame.liveStatesAll c.children) : Answers P J strays st c p q := by
  cases h with
  | unended => exact .unended
  | normal h => exact .normal h
  | jump hlabel h => exact .jump hlabel h
  | fail h => exact fail_outside hst h

/-- And the other way round. -/
theorem matched {p q : Option (Outcome × Config σ)} (h : Answers P J strays st {} p q) :
    Matched (P.Has strays st) J p q := by
  cases h with
  | unended => exact .unended
  | normal h => exact .normal h
  | jump hlabel h => exact .jump hlabel h
  | suspend hs => cases hs
  | fail hs hreads hclean h =>
    cases hclean
    exact .fail h
  | stuck hs hreads hclean => cases hclean

/-- The contents are a part of larger ones, whose other frames are live in no state of the part. -/
structure Inside (st : Int) (c c' : Contents) : Prop where
  resume : ∀ s ∈ c.resumeStates, s ∈ c'.resumeStates
  states : ∀ s ∈ st :: c.states, s ∈ st :: c'.states
  live : ∀ s ∈ st :: c.states, liveFrames c'.children s = liveFrames c.children s

theorem mono {p q : Option (Outcome × Config σ)} (h : Answers P J strays st c p q)
    (hJ : ∀ l k, J l k → J' l k) (hstrays : ∀ l ∈ strays', l ∈ strays) (hc : Inside st c c') :
    Answers P J' strays' st c' p q := by
  cases h with
  | unended => exact .unended
  | normal h => exact .normal (h.fewer hstrays)
  | jump hlabel h => exact .jump (hJ _ _ hlabel) (h.fewer hstrays)
  | suspend hs hplace h hvalue => exact .suspend (hc.resume _ hs) hplace h hvalue
  | fail hs hreads hclean h =>
    exact .fail (hc.states _ hs) hreads ((hc.live _ hs).symm ▸ hclean) (h.fewer hstrays)
  | stuck hs hreads hclean =>
    exact .stuck (hc.states _ hs) hreads ((hc.live _ hs).symm ▸ hclean)

theorem Inside.refl (st : Int) (c : Contents) : Inside st c c :=
  ⟨fun _ h => h, fun _ h => h, fun _ _ => rfl⟩

theorem liveFrames_append (fs gs : List Frame) (s : Int) :
    liveFrames (fs ++ gs) s = liveFrames gs s ++ liveFrames fs s := by
  induction fs with
  | nil => simp [liveFrames, Frame.preorderAll]
  | cons f rest ih =>
    rw [List.cons_append, liveFrames_cons, ih, liveFrames_cons f rest, List.append_assoc]

theorem Inside.append_left {a b : Contents} (h : (st :: (a.append b).states).Nodup) :
    Inside st a (a.append b) := by
  have hperm := ((Contents.states_append a b).cons st).nodup_iff.mp h
  refine ⟨fun s hs => ?_, fun s hs => ?_, fun s hs => ?_⟩
  · simp only [Contents.resumeStates, Contents.append, List.map_append,
      Frame.resumeStatesAll_append, List.mem_append] at hs ⊢
    tauto
  · exact ((Contents.states_append a b).cons st).mem_iff.mpr
      (List.mem_cons.mp hs |>.elim (fun h => h ▸ List.mem_cons_self) fun h =>
        List.mem_cons_of_mem _ (List.mem_append_left _ h))
  · have hout : s ∉ Frame.liveStatesAll b.children := by
      intro hb
      have hb : s ∈ b.states := List.mem_append_right _ hb
      exact (List.nodup_append.mp (List.cons_append ▸ hperm : ((st :: a.states) ++ b.states).Nodup)).2.2
        s hs s hb rfl
    simp only [Contents.append, liveFrames_append, liveFrames_outside hout, List.nil_append]

theorem Inside.append_right {a b : Contents} (h : (st :: (a.append b).states).Nodup) :
    Inside st b (a.append b) := by
  have hperm := ((Contents.states_append a b).cons st).nodup_iff.mp h
  refine ⟨fun s hs => ?_, fun s hs => ?_, fun s hs => ?_⟩
  · simp only [Contents.resumeStates, Contents.append, List.map_append,
      Frame.resumeStatesAll_append, List.mem_append] at hs ⊢
    tauto
  · exact ((Contents.states_append a b).cons st).mem_iff.mpr
      (List.mem_cons.mp hs |>.elim (fun h => h ▸ List.mem_cons_self) fun h =>
        List.mem_cons_of_mem _ (List.mem_append_right _ h))
  · have hout : s ∉ Frame.liveStatesAll a.children := by
      intro ha
      have ha : s ∈ a.states := List.mem_append_right _ ha
      rcases List.mem_cons.mp hs with rfl | hb
      · exact (List.nodup_cons.mp hperm).1 (List.mem_append_left _ ha)
      · exact (List.nodup_append.mp (List.nodup_cons.mp hperm).2).2.2 s ha s hb rfl
    simp only [Contents.append, liveFrames_append, liveFrames_outside hout, List.append_nil]

/-- One part behind another. -/
theorem onNormal (h : Answers P J strays st c (x a) (y d))
    (h' : ∀ a d, P.Has strays st a d → Answers P J strays st c (x' a) (y' d)) :
    Answers P J strays st c (x.onNormal x' a) (y.onNormal y' d) := by
  unfold Flow.onNormal Flow.andThen
  generalize x a = p, y d = q at h
  cases h with
  | unended => exact .unended
  | normal h => exact h' _ _ h
  | jump hlabel h => exact .jump hlabel h
  | suspend hs hplace h hvalue => exact .suspend hs hplace h hvalue
  | fail hs hreads hclean h => exact .fail hs hreads hclean h
  | stuck hs hreads hclean => exact .stuck hs hreads hclean

/-! ## Rounds -/

section Rounds

variable {S S' : Setting σ} {scope scope' : Range} {near near' labels labels' : List (Option Label)}
  {part part' : Entry → Flow σ}

/-- A jump stays on both sides, and the parts answer from there on, or it stays on neither. -/
def Stays (P : Pairing σ) (J : Jumps) (strays : List Local) (st : Int) (c : Contents)
    (near near' labels labels' : List (Option Label)) (part part' : Entry → Flow σ) : Prop :=
  ∀ l k, J l k → Entry.staying? near labels l = none ∧ Entry.staying? near' labels' k = none ∨
    ∃ e e', Entry.staying? near labels l = some e ∧ Entry.staying? near' labels' k = some e' ∧
      ∀ a d, P.Has strays st a d → Answers P J strays st c (part e a) (part' e' d)

/-- The jumps that leave rounds. -/
def leaving (J : Jumps) (near labels : List (Option Label)) : Jumps := fun l k =>
  J l k ∧ l ∉ labels ∧ l ∉ near

theorem roundsUpTo (hstays : Stays P J strays st c near near' labels labels' part part') (n : Nat) :
    ∀ e e' a d, Answers P J strays st c (part e a) (part' e' d) →
      Answers P (leaving J near labels) strays st c
        (S.roundsUpTo scope near labels part n e a)
        (S'.roundsUpTo scope' near' labels' part' n e' d) := by
  induction n with
  | zero => exact fun _ _ _ _ _ => .unended
  | succ n ih =>
    intro e e' a d h
    simp only [Setting.roundsUpTo, Flow.andThen]
    generalize part e a = p, part' e' d = q at h
    cases h with
    | unended => exact .unended
    | normal h => exact .normal h
    | @jump p q l k a d hlabel h =>
      rcases hstays l k hlabel with ⟨hl, hk⟩ | ⟨e₁, e₁', hl, hk, hnext⟩
      · simp only [Option.bind_some, Setting.again, hl, hk]
        exact .jump ⟨hlabel, Entry.staying?_eq_none.mp hl⟩ h
      · simp only [Option.bind_some, Setting.again, hl, hk]
        exact ih _ _ _ _ (hnext _ _ (h.leave ..))
    | suspend hs hplace h hvalue => exact .suspend hs hplace h hvalue
    | fail hs hreads hclean h => exact .fail hs hreads hclean h
    | stuck hs hreads hclean => exact .stuck hs hreads hclean

/-- Rounds answer each other if the first ones do and those after each jump that stays. -/
theorem rounds (hstays : Stays P J strays st c near near' labels labels' part part') {e e' : Entry}
    (h : Answers P J strays st c (part e a) (part' e' d)) :
    Answers P (leaving J near labels) strays st c (S.rounds scope near labels part e a)
      (S'.rounds scope' near' labels' part' e' d) := by
  have hupTo : ∀ n, Answers P (leaving J near labels) strays st c
      (S.roundsUpTo scope near labels part n e a)
      (S'.roundsUpTo scope' near' labels' part' n e' d) := fun n => roundsUpTo hstays n e e' a d h
  have hsome : ∀ {n z}, S.roundsUpTo scope near labels part n e a = some z →
      S.rounds scope near labels part e a = some z := fun h => Setting.rounds_eq_some.mpr ⟨_, h⟩
  have hsome' : ∀ {n z}, S'.roundsUpTo scope' near' labels' part' n e' d = some z →
      S'.rounds scope' near' labels' part' e' d = some z :=
    fun h => Setting.rounds_eq_some.mpr ⟨_, h⟩
  cases hz : S.rounds scope near labels part e a with
  | some z =>
    obtain ⟨n, hn⟩ := Setting.rounds_eq_some.mp hz
    have hn' := hupTo n
    rw [hn] at hn'
    cases hq : S'.roundsUpTo scope' near' labels' part' n e' d with
    | none =>
      rw [hq] at hn'
      cases hn'
    | some z' => rwa [hsome' hq, ← hq]
  | none =>
    cases hz' : S'.rounds scope' near' labels' part' e' d with
    | none => exact .unended
    | some z' =>
      obtain ⟨n, hn⟩ := Setting.rounds_eq_some.mp hz'
      have hn' := hupTo n
      rw [hn] at hn'
      cases hp : S.roundsUpTo scope near labels part n e a with
      | none => rwa [hp] at hn'
      | some z =>
        rw [hsome hp] at hz
        cases hz

end Rounds

end Answers

end Resumable.Machine
