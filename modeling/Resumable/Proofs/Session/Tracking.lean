import Resumable.Proofs.Machine.Assertions
import Resumable.Proofs.Machine.Tries
import Resumable.Proofs.Session.Resumption
import Resumable.Proofs.StateMachine.Positions

/-!
# Following a resumed machine

While a state machine is resumed, the place of control says which states it can be in: in a frame
that of the frame, behind a label those of its place.  What is known of the world in each state
(`Phase`) is carried through the whole image of a body, past every way out of it, if the few steps
that change the state carry it over (`Tracks`, `track_block`).
-/

set_option autoImplicit false

namespace Resumable.StateMachine

open Resumable.Symbol Resumable.Tree Resumable.Source Resumable.Lowering
open Resumable.Machine hiding Region Outcome Handler

variable {σ : Type}

/-! ## Frames inside each other -/

/-- The frame with the state has the contents, where that outside of every frame has `root`. -/
inductive Level (root : Contents) : Int → Contents → Prop where
  | top : Level root stateRunning root
  | inside {st : Int} {c : Contents} {f : Frame} (h : Level root st c) (hf : f ∈ c.children) :
      Level root f.state ⟨f.suspensions, f.children⟩

/-- What a machine is about: it is in a state, it has stored the element of a suspension in a frame,
or it has suspended. -/
inductive Phase where
  | inState (s : Int)
  | stored (frame s : Int)
  | given (s : Int)
  deriving DecidableEq, Repr

/-- What the steps that change the state carry over.  `I` is what is known of the world in each
phase, and `entered` are the frames whose entries the observer looks for: it stands directly before
the label of the frame. -/
structure Tracks (S : Setting σ) (plan : Plan) (owner : TypeDecl) (root : Contents)
    (element : Int → Expr → Prop) (r : Ref) (I : Phase → World σ → Prop) (entered : List Frame) :
    Prop where
  plain : ∀ e, S.observer.element? e = none
  note : ∀ p, (∀ f ∈ entered, S.label (some f.entry) ≠ p + 1) → ∀ φ c, c.At r (I φ) →
    (S.observer.note p c).At r (I φ)
  user : ∀ e, OfUser owner e → ∀ s, (eval S.ctx e).Keeps r (I (.inState s))
  reads : ∀ s w, I (.inState s) w → w.Reads r plan.state (.int s)
  enter : ∀ {st : Int} {c : Contents} {f : Frame}, Level root st c → f ∈ c.children →
    ∀ p, S.label (some f.entry) = p + 1 → ∀ e, e.At r (I (.inState st)) →
      (S.observer.note p e).At r fun w => I (.inState f.state) (w.put r plan.state (.int f.state))
  own : ∀ {st : Int} {c : Contents} {f : Frame}, Level root st c → f ∈ c.children →
    f.cleanup.symbol.isHost = false
  cleanup : ∀ {st : Int} {c : Contents} {f : Frame}, Level root st c → f ∈ c.children →
    ∀ w z v, I (.inState f.state) w → S.ctx.call f.cleanup.symbol (some r) [] w = some (z, v) →
      I (.inState st) v
  store : ∀ {st : Int} {c : Contents} {s : Suspension}, Level root st c → s ∈ c.suspensions →
    ∀ {e : Expr}, element s.state e → OfUser owner e → ∀ d, d.At r (I (.inState st)) →
      ∀ v d', eval S.ctx e d = some (.ok v, d') → I (.stored st s.state) (d'.world.put r plan.current v)
  suspend : ∀ st s w, I (.stored st s) w → I (.given s) (w.put r plan.state (.int s))
  resume : ∀ {st : Int} {c : Contents} {s : Suspension}, Level root st c → s ∈ c.suspensions →
    ∀ w, I (.inState s.state) w → I (.inState st) (w.put r plan.state (.int st))

/-! ## Assertions for labels and ways out -/

section Assertions

variable (T : Table) (r : Ref) (I : Phase → World σ → Prop) (free : Option Label → Prop)
  (strict : Bool)

/-- What is known of a label with the place where a machine in the state reaches it.  In strict use
it leads to a free one. -/
def Leading (s : Int) (l : Option Label) : Prop :=
  ∃ place, T l place ∧ s ∈ place.states ∧ (strict = true → ∀ g, place.goal = some g → free g)

/-- What holds where a label is reached: the machine is in one of the states of its place. -/
def Arrives (l : Option Label) (d : Config σ) : Prop :=
  ∃ s, Leading T free strict s l ∧ d.At r (I (.inState s))

/-- The ways out of a part of the frame with the contents.  In strict use nothing stops the run. -/
def waysOutOf (frame : Int) (c : Contents) : Exits σ where
  jump l d := ∃ s ∈ frame :: c.states, Leading T free strict s l ∧ d.At r (I (.inState s))
  ret v d := v = .bool true ∧ ∃ s ∈ c.states, d.At r (I (.given s))
  fail d := ∃ s ∈ frame :: c.states, d.At r (I (.inState s))
  stop d := strict = false ∧ ∃ s ∈ frame :: c.states, d.At r (I (.inState s))

end Assertions

theorem steadfast_at (r : Ref) (I : World σ → Prop) : Steadfast fun c : Config σ => c.At r I :=
  fun _ _ hworld hthis hc => ⟨hthis.trans hc.this, hworld ▸ hc.world⟩

section Exits

variable {T : Table} {r : Ref} {I : Phase → World σ → Prop} {free : Option Label → Prop}
  {strict : Bool} {frame : Int} {c : Contents}

/-- A jump that stays in a part arrives. -/
theorem arrives_of_jump {l : Option Label} {d : Config σ}
    (h : (waysOutOf T r I free strict frame c).jump l d) (scope : Range) (p : Nat)
    (target : Option Nat) : Arrives T r I free strict l (d.leave scope p target) := by
  obtain ⟨s, -, hl, hd⟩ := h
  exact ⟨s, hl, steadfast_at _ _ d _ rfl rfl hd⟩

/-- The ways out of a part are ways out of a larger one. -/
theorem waysOutOf_within {frame' : Int} {c' : Contents}
    (h : ∀ s ∈ frame :: c.states, s ∈ frame' :: c'.states) (h' : ∀ s ∈ c.states, s ∈ c'.states) :
    (waysOutOf T r I free strict frame c).Within (waysOutOf T r I free strict frame' c') where
  jump _ _ := fun ⟨s, hs, hrest⟩ => ⟨s, h s hs, hrest⟩
  ret _ _ := fun ⟨hv, s, hs, hd⟩ => ⟨hv, s, h' s hs, hd⟩
  fail _ := fun ⟨s, hs, hd⟩ => ⟨s, h s hs, hd⟩
  stop _ := fun ⟨hstrict, s, hs, hd⟩ => ⟨hstrict, s, h s hs, hd⟩

theorem waysOutOf_append_left (b : Contents) : (waysOutOf T r I free strict frame c).Within
    (waysOutOf T r I free strict frame (c.append b)) := by
  have hstates : ∀ s ∈ c.states, s ∈ (c.append b).states := fun s hs =>
    (Contents.states_append c b).mem_iff.mpr (List.mem_append_left _ hs)
  exact waysOutOf_within (fun s hs => (List.mem_cons.mp hs).elim (fun h => h ▸ List.mem_cons_self)
    fun h => List.mem_cons_of_mem _ (hstates s h)) hstates

theorem waysOutOf_append_right (a : Contents) : (waysOutOf T r I free strict frame c).Within
    (waysOutOf T r I free strict frame (a.append c)) := by
  have hstates : ∀ s ∈ c.states, s ∈ (a.append c).states := fun s hs =>
    (Contents.states_append a c).mem_iff.mpr (List.mem_append_right _ hs)
  exact waysOutOf_within (fun s hs => (List.mem_cons.mp hs).elim (fun h => h ▸ List.mem_cons_self)
    fun h => List.mem_cons_of_mem _ (hstates s h)) hstates

/-- In a part without suspensions the machine is in the state of the frame throughout. -/
theorem waysOutOf_empty : waysOutOf T r I free strict frame {} =
    .steady (fun d => d.At r (I (.inState frame))) (Leading T free strict frame)
      (strict = false) := by
  simp only [waysOutOf, Exits.steady, Exits.mk.injEq]
  refine ⟨?_, ?_, ?_, ?_⟩
  all_goals
    funext
    simp [Contents.states, Frame.liveStatesAll]

end Exits

/-! ## Sites -/

/-- A part of the frame with the contents that stands at `pc` and has the size and the labels.  If
there are frames in it, the labels have their positions; and of the frames that the observer looks
for, only those in it have their labels in its code. -/
structure Site (S : Setting σ) (root : Contents) (entered : List Frame) (frame : Int)
    (c : Contents) (pc size : Nat) (labels : List (Option Label × Nat)) : Prop where
  level : ∃ whole, Level root frame whole ∧ (∀ s ∈ c.suspensions, s ∈ whole.suspensions) ∧
    ∀ f ∈ c.children, f ∈ whole.children
  labelled : c.children ≠ [] → Labelled S labels
  apart : ∀ f ∈ entered, pc < S.label (some f.entry) → S.label (some f.entry) ≤ pc + size →
    f ∈ Frame.preorderAll c.children

namespace Site

variable {S : Setting σ} {root : Contents} {entered : List Frame} {frame : Int} {c : Contents}
  {pc size : Nat} {labels : List (Option Label × Nat)}

/-- Where no frame stands, none is entered. -/
theorem outlasts (h : Site S root entered frame c pc size labels) (hc : c.children = [])
    {plan : Plan} {owner : TypeDecl} {element : Int → Expr → Prop} {r : Ref}
    {I : Phase → World σ → Prop} (H : Tracks S plan owner root element r I entered) (φ : Phase) :
    S.Outlasts (fun d => d.At r (I φ)) pc size := by
  intro p hp hlt
  refine H.note p (fun f hf heq => ?_) φ
  have hmem := h.apart f hf (by omega) (by omega)
  rw [hc] at hmem
  cases hmem

/-- A part of a part without frames. -/
theorem part (h : Site S root entered frame {} pc size labels) {pc' size' : Nat}
    (hpc : pc ≤ pc') (hsize : pc' + size' ≤ pc + size) (labels' : List (Option Label × Nat)) :
    Site S root entered frame {} pc' size' labels' :=
  ⟨h.level, fun hne => absurd rfl hne, fun f hf hlt hle => h.apart f hf (by omega) (by omega)⟩

/-- Two parts, one behind the other. -/
theorem append {a b : Contents} {m n : Nat} {xs ys : List (Option Label × Nat)}
    (h : Site S root entered frame (a.append b) pc (m + n) (xs ++ ys))
    (ha : Labelled S xs → ∀ f ∈ Frame.preorderAll a.children,
      pc < S.label (some f.entry) ∧ S.label (some f.entry) ≤ pc + m)
    (hb : Labelled S ys → ∀ f ∈ Frame.preorderAll b.children,
      pc + m < S.label (some f.entry) ∧ S.label (some f.entry) ≤ pc + m + n) :
    Site S root entered frame a pc m xs ∧ Site S root entered frame b (pc + m) n ys := by
  obtain ⟨⟨whole, hlevel, hsuspensions, hchildren⟩, hlabelled, hapart⟩ := h
  have hone : a.children ≠ [] → Labelled S xs := fun hne =>
    (Labelled.append.mp (hlabelled fun h => hne (List.append_eq_nil_iff.mp h).1)).1
  have htwo : b.children ≠ [] → Labelled S ys := fun hne =>
    (Labelled.append.mp (hlabelled fun h => hne (List.append_eq_nil_iff.mp h).2)).2
  have hnonempty : ∀ {fs : List Frame} {f : Frame}, f ∈ Frame.preorderAll fs → fs ≠ [] := by
    rintro fs f hf rfl
    cases hf
  rw [Contents.append, Frame.preorderAll_append] at hapart
  refine ⟨⟨⟨whole, hlevel, fun s hs => hsuspensions s (List.mem_append_left _ hs),
    fun f hf => hchildren f (List.mem_append_left _ hf)⟩, hone, fun f hf hlt hle => ?_⟩,
    ⟨⟨whole, hlevel, fun s hs => hsuspensions s (List.mem_append_right _ hs),
      fun f hf => hchildren f (List.mem_append_right _ hf)⟩, htwo, fun f hf hlt hle => ?_⟩⟩
  · refine (List.mem_append.mp (hapart f hf hlt (by omega))).resolve_right fun hmem => ?_
    have := hb (htwo (hnonempty hmem)) f hmem
    omega
  · refine (List.mem_append.mp (hapart f hf (by omega) (by omega))).resolve_left fun hmem => ?_
    have := ha (hone (hnonempty hmem)) f hmem
    omega

/-- The parts of a frame: the code inside it is a part of its own, and no other frame is entered
where it begins and behind it. -/
theorem region {plan : Plan} {owner : TypeDecl} {element : Int → Expr → Prop} {r : Ref}
    {I : Phase → World σ → Prop} (H : Tracks S plan owner root element r I entered)
    {o body : Origin} {f : Frame} {start : Label} {b' : Block} {ways : List Stmt}
    (h : Site S root entered frame ⟨[], [f]⟩ pc
      (sizeStmt (region plan o body f start b'.statements ways))
      (flattenStmt pc (region plan o body f start b'.statements ways)).labels)
    (hentries : Labelled S (flattenBlock (pc + 2) b').labels →
      ∀ g ∈ Frame.preorderAll f.children, pc + 2 < S.label (some g.entry) ∧
        S.label (some g.entry) ≤ pc + 2 + sizeBlock b') :
    S.label (some f.entry) = pc + 1 ∧
      Site S root entered f.state ⟨f.suspensions, f.children⟩ (pc + 2) (sizeBlock b')
        (flattenBlock (pc + 2) b').labels ∧
      (∀ φ, S.Outlasts (fun d => d.At r (I φ)) (pc + 1) 1) ∧
      ∀ φ, S.Outlasts (fun d => d.At r (I φ)) (pc + 2 + sizeBlock b') (1 + sizeStmts ways) := by
  obtain ⟨⟨whole, hlevel, -, hchildren⟩, hlabelled, hapart⟩ := h
  obtain ⟨hentry, hbody, -⟩ := labelled_region (hlabelled (by simp))
  have hinside := hentries hbody
  rw [sizeStmt_region] at hapart
  have hcases : ∀ g ∈ entered, pc < S.label (some g.entry) →
      S.label (some g.entry) ≤ pc + (sizeBlock b' + 3 + sizeStmts ways) →
      g = f ∨ g ∈ Frame.preorderAll f.children := by
    intro g hg hlt hle
    have hmem := hapart g hg hlt hle
    rwa [Frame.preorderAll, Frame.preorderAll, List.append_nil, Frame.preorder_eq,
      List.mem_cons] at hmem
  have hclear : ∀ p, pc < p → p < pc + (sizeBlock b' + 3 + sizeStmts ways) →
      (p < pc + 2 ∨ pc + 2 + sizeBlock b' ≤ p) → ∀ g ∈ entered, S.label (some g.entry) ≠ p + 1 := by
    intro p hp hlt hout g hg heq
    rcases hcases g hg (by omega) (by omega) with rfl | hmem
    · omega
    · have := hinside g hmem
      omega
  refine ⟨hentry, ⟨⟨_, .inside hlevel (hchildren f List.mem_cons_self), fun s hs => hs,
    fun g hg => hg⟩, fun _ => hbody, fun g hg hlt hle => ?_⟩, fun φ p hp hlt => ?_, fun φ p hp hlt => ?_⟩
  · rcases hcases g hg (by omega) (by omega) with rfl | hmem
    · omega
    · exact hmem
  · exact H.note p (hclear p (by omega) (by omega) (by omega)) φ
  · exact H.note p (hclear p (by omega) (by omega) (by omega)) φ

end Site

/-! ## Steps that change the state -/

section Steps

variable {S : Setting σ} {plan : Plan} {owner : TypeDecl} {root : Contents}
  {element : Int → Expr → Prop} {r : Ref} {I : Phase → World σ → Prop} {entered : List Frame}
  {T : Table} {free : Option Label → Prop} {strict : Bool} {X : Exits σ}
  {place : Option Label → Config σ → Prop} {scope : Range} {pc : Nat} {near : List (Option Label)}

/-- Where a label with a place is reached, the machine is in one of its states. -/
theorem Arrives.states {l : Option Label} {d : Config σ} (h : Arrives T r I free strict l d)
    (hT : T.Functional) {at' : Place} (hl : T l at') :
    ∃ s ∈ at'.states, d.At r (I (.inState s)) ∧
      (strict = true → ∀ g, at'.goal = some g → free g) := by
  obtain ⟨s, ⟨place, hplace, hs, hfree⟩, hd⟩ := h
  obtain rfl := hT l _ _ hplace hl
  exact ⟨s, hs, hd, hfree⟩

/-- The state is set. -/
theorem spec_setState (H : Tracks S plan owner root element r I entered) {s : Int}
    {pre : Config σ → Prop} {post : World σ → Prop} (hnote : ∀ c, pre c →
      (S.observer.note pc c).At r fun w => post (w.put r plan.state (.int s))) :
    Spec X place (labelsStmt (plan.setState s)) pre (fun d => d.At r post)
      (S.exec scope pc near (plan.setState s)) := by
  have heval : ∀ {c : Config σ}, c.activation.this = some r → ∀ {z d},
      eval S.ctx (stateAssignment plan.provenance plan.state s) c = some (z, d) →
      z = .ok (.int s) ∧ d = { c with world := c.world.put r plan.state (.int s) } := by
    intro c hthis z d hd
    rw [eval_stateAssignment S.ctx plan.provenance plan.state s hthis] at hd
    cases hd
    exact ⟨rfl, rfl⟩
  refine Spec.expression (H.plain _) _ hnote (fun c v d hc hd => ?_) fun c f d hc hd => ?_
  · obtain ⟨-, rfl⟩ := heval hc.this hd
    exact ⟨hc.this, hc.world⟩
  · cases (heval hc.this hd).1

/-- The finally of a frame is called. -/
theorem spec_callCleanup (H : Tracks S plan owner root element r I entered) {st : Int}
    {c : Contents} {f : Frame} (hlevel : Level root st c) (hf : f ∈ c.children) (P : Prop)
    (hnote : ∀ d, d.At r (I (.inState f.state)) →
      (S.observer.note pc d).At r (I (.inState f.state)))
    (hfail : ∀ d, d.At r (I (.inState st)) → X.fail d) (p : Option Provenance) :
    Spec X place (labelsStmt (callCleanup p f)) (fun d => P ∧ d.At r (I (.inState f.state)))
      (fun d => P ∧ d.At r (I (.inState st))) (S.exec scope pc near (callCleanup p f)) := by
  have heval : ∀ {e z d}, e.At r (I (.inState f.state)) →
      eval S.ctx (cleanupCall p f) e = some (z, d) → d.At r (I (.inState st)) := by
    intro e z d he hd
    rw [cleanupCall, eval_callThis he.this (H.own hlevel hf)] at hd
    obtain ⟨⟨z', v⟩, hcall, heq⟩ := Option.map_eq_some_iff.mp hd
    cases heq
    exact ⟨he.this, H.cleanup hlevel hf _ _ _ he.world hcall⟩
  refine Spec.expression (H.plain _) (fun d => P ∧ d.At r (I (.inState f.state)))
    (fun e he => ⟨he.1, hnote e he.2⟩) (fun e v d he hd => ?_) fun e f d he hd => ?_
  · exact ⟨he.1, heval he.2 hd⟩
  · exact hfail d (heval he.2 hd)

/-- The dispatch on the state. -/
theorem spec_dispatch (H : Tracks S plan owner root element r I entered) {states : List Int}
    (hnote : ∀ s d, d.At r (I (.inState s)) → (S.observer.note pc d).At r (I (.inState s)))
    {o : Origin} {cases : List DispatchCase} {otherwise : Option Label}
    (hjump : ∀ s ∈ states, ∀ d, d.At r (I (.inState s)) →
      X.jump (Setting.caseLabel cases otherwise s) d) :
    Spec X place (labelsStmt (.dispatch o plan.stateRef cases otherwise))
      (fun d => ∃ s ∈ states, d.At r (I (.inState s))) (fun _ => False)
      (S.exec scope pc near (.dispatch o plan.stateRef cases otherwise)) := by
  have heval : ∀ {s d}, d.At r (I (.inState s)) →
      (do Act.ofExcept (← eval S.ctx plan.stateRef).asInt : Act σ Int) d = some (.ok s, d) := by
    intro s d hd
    rw [Act.bind_apply, eval_stateRef hd.this (H.reads s _ hd.world)]
    rfl
  refine Spec.leaf rfl (fun d => ∃ s ∈ states, d.At r (I (.inState s)))
    (fun d ⟨s, hs, hd⟩ => ⟨s, hs, hnote s d hd⟩) (.effect ?_ ?_)
  · rintro d n d' ⟨s, hs, hd⟩ hd'
    rw [heval hd] at hd'
    cases hd'
    exact hjump _ hs _ hd
  · rintro d n d' ⟨s, hs, hd⟩ hd'
    rw [heval hd] at hd'
    cases hd'

/-- A value is stored in a field of the instance, if its evaluation does not fail. -/
theorem eval_storeField {ctx : Context σ} {p : Option Provenance} {f : Field} {e : Expr}
    {c d : Config σ} {z : Except Failure Value}
    (hd : eval ctx (.assignment (.made p) (Made.field p f) e) c = some (z, d))
    (hthis : ∀ x c', eval ctx e c = some (x, c') → c'.activation.this = some r) :
    (∃ E, z = .error E ∧ eval ctx e c = some (.error E, d)) ∨ ∃ v d', z = .ok v ∧
      eval ctx e c = some (.ok v, d') ∧ d = { d' with world := d'.world.put r f v } := by
  rw [eval, Act.bind_apply] at hd
  cases hvalue : eval ctx e c with
  | none =>
    rw [hvalue] at hd
    cases hd
  | some x =>
    obtain ⟨x, d'⟩ := x
    rw [hvalue] at hd
    cases x with
    | error E =>
      cases hd
      exact .inl ⟨E, rfl, rfl⟩
    | ok v =>
      simp only [Made.field, Made.this, store, eval, Act.bind_apply, readThis_apply,
        hthis _ _ hvalue] at hd
      cases hd
      exact .inr ⟨v, d', rfl, rfl, rfl⟩

/-- A suspension: it returns in its own state, and goes on in the state of the frame. -/
theorem spec_suspend (H : Tracks S plan owner root element r I entered) (hT : T.Functional)
    {frame : Int} {s : Suspension} {labels : List (Option Label × Nat)}
    (hsite : Site S root entered frame ⟨[s], []⟩ pc 4 labels)
    (hresume : T (some s.resume) (.inner [s.state])) {o : Origin} {e : Expr}
    (helement : element s.state e) (he : OfUser owner e) :
    Spec (waysOutOf T r I free strict frame ⟨[s], []⟩) (Arrives T r I free strict)
      (labelsStmt (suspend plan o e s frame)) (fun d => d.At r (I (.inState frame)))
      (fun d => d.At r (I (.inState frame))) (S.exec scope pc near (suspend plan o e s frame)) := by
  obtain ⟨whole, hlevel, hsuspensions, -⟩ := hsite.level
  have hs : s ∈ whole.suspensions := hsuspensions s List.mem_cons_self
  have hnote : ∀ p, pc ≤ p → p < pc + 4 → ∀ φ d, d.At r (I φ) → (S.observer.note p d).At r (I φ) :=
    fun p hp hlt φ => hsite.outlasts rfl H φ p hp hlt
  -- The element is stored, or its evaluation fails in the state of the frame.
  have hstore : Spec (waysOutOf T r I free strict frame ⟨[s], []⟩) (Arrives T r I free strict)
      (labelsStmt (Made.assign o.provenance (Made.field o.provenance plan.current) e))
      (fun d => d.At r (I (.inState frame))) (fun d => d.At r (I (.stored frame s.state)))
      (S.exec scope pc near (Made.assign o.provenance (Made.field o.provenance plan.current) e)) := by
    have hkeeps : ∀ {d z d'}, d.At r (I (.inState frame)) → eval S.ctx e d = some (z, d') →
        d'.At r (I (.inState frame)) := fun hd h => H.user e he frame _ hd _ _ h
    refine Spec.expression (H.plain _) (fun d => d.At r (I (.inState frame)))
      (hnote pc (by omega) (by omega) _) (fun c v d hc hd => ?_) fun c E d hc hd => ?_
    · obtain ⟨E, hE, -⟩ | ⟨v', d', -, hv, rfl⟩ :=
        eval_storeField hd fun x c' h => (hkeeps hc h).this
      · cases hE
      · exact ⟨(hkeeps hc hv).this, H.store hlevel hs helement he c hc v' d' hv⟩
    · obtain ⟨E', -, hv⟩ | ⟨v', d', hE, -⟩ := eval_storeField hd fun x c' h => (hkeeps hc h).this
      · exact ⟨frame, List.mem_cons_self, hkeeps hc hv⟩
      · cases hE
  have hset : Spec (waysOutOf T r I free strict frame ⟨[s], []⟩) (Arrives T r I free strict)
      (labelsStmt (plan.setState s.state)) (fun d => d.At r (I (.stored frame s.state)))
      (fun d => d.At r (I (.given s.state))) (S.exec scope (pc + 1) [] (plan.setState s.state)) :=
    spec_setState H fun d hd =>
      have hd := hnote (pc + 1) (by omega) (by omega) _ d hd
      ⟨hd.this, H.suspend frame s.state _ hd.world⟩
  have hret : Spec (waysOutOf T r I free strict frame ⟨[s], []⟩) (Arrives T r I free strict)
      (labelsStmt (plan.returnBool true)) (fun d => d.At r (I (.given s.state)))
      (fun _ => False) (S.exec scope (pc + 1 + 1) [] (plan.returnBool true)) := by
    refine Spec.leaf rfl (fun d => d.At r (I (.given s.state)))
      (hnote (pc + 2) (by omega) (by omega) _) (.effect (fun d v d' hd hd' => ?_)
        fun d E d' hd hd' => ?_)
    all_goals cases hd'
    exact ⟨rfl, s.state, by simp [Contents.states, Frame.liveStatesAll], hd⟩
  have hback : Spec (waysOutOf T r I free strict frame ⟨[s], []⟩) (Arrives T r I free strict)
      (labelsStmt (plan.setState frame)) (fun d => d.At r (I (.inState s.state)))
      (fun d => d.At r (I (.inState frame)))
      (S.exec scope (pc + 1 + 1 + 1 + 0) [some s.resume] (plan.setState frame)) :=
    spec_setState H fun d hd =>
      have hd := hnote (pc + 3) (by omega) (by omega) _ d hd
      ⟨hd.this, H.resume hlevel hs _ hd.world⟩
  refine Spec.list ?_ fun p l d hd => arrives_of_jump hd scope p _
  refine .cons rfl hstore (.cons rfl hset (.cons rfl hret (.cons rfl (.label ?_ ?_)
    (.cons rfl hback .nil))))
  · exact fun d hd => hd.elim
  · intro d hd
    obtain ⟨st, hst, hd, -⟩ := hd.states hT hresume
    rw [← List.mem_singleton.mp hst]
    exact hd

/-- The proxies of a frame: each is reached in the state of the frame, calls its finally, and goes on
in the frame around. -/
theorem spec_routes (H : Tracks S plan owner root element r I entered) (hT : T.Functional)
    {frame : Int} {c : Contents} {f : Frame} (hlevel : Level root frame c) (hf : f ∈ c.children)
    (p : Option Provenance) {after : Label} (hafter : T (some after) (.inner [frame])) :
    ∀ (routes : List Route) (pc : Nat) (near : List (Option Label)),
      (∀ x ∈ routes, T (some x.proxy) (.leading f.state x.target) ∧
        T x.next (.leading frame x.target)) →
      (∀ φ, S.Outlasts (fun d => d.At r (I φ)) pc (2 * routes.length)) →
      Spec (waysOutOf T r I free strict frame ⟨[], [f]⟩) (Arrives T r I free strict)
        (labelsStmts (routes.flatMap (fun x =>
          [Made.label p x.proxy, callCleanup p f, .goto (.made p) x.next]) ++
            [Made.label p after])) (fun _ => False) (fun d => d.At r (I (.inState frame)))
        (S.pass scope pc near (routes.flatMap (fun x =>
          [Made.label p x.proxy, callCleanup p f, .goto (.made p) x.next]) ++
            [Made.label p after]))
  | [], pc, near, _, _ => by
    refine .cons rfl (.label (fun d hd => hd.elim) fun d hd => ?_) .nil
    obtain ⟨st, hst, hd, -⟩ := hd.states hT hafter
    rw [← List.mem_singleton.mp hst]
    exact hd
  | x :: rest, pc, near, hroutes, hnote => by
    obtain ⟨⟨hproxy, hnext⟩, hroutes⟩ := List.forall_mem_cons.mp hroutes
    rw [List.length_cons] at hnote
    have hrest := spec_routes H hT hlevel hf p hafter rest (pc + 0 + 1 + 1) [] hroutes
      fun φ => (hnote φ).part (by omega) (by omega)
    have hcall : Spec (waysOutOf T r I free strict frame ⟨[], [f]⟩) (Arrives T r I free strict)
        (labelsStmt (callCleanup p f))
        (fun d => (strict = true → free x.target) ∧ d.At r (I (.inState f.state)))
        (fun d => (strict = true → free x.target) ∧ d.At r (I (.inState frame)))
        (S.exec scope (pc + 0) (near ++ [some x.proxy]) (callCleanup p f)) := by
      refine spec_callCleanup H hlevel hf _ (hnote _ pc (by omega) (by omega)) ?_ p
      exact fun d hd => ⟨frame, List.mem_cons_self, hd⟩
    refine .cons rfl (.label (fun d hd => hd.elim) fun d hd => ?_) (.cons rfl hcall
      (.cons rfl (.goto fun d hd => ?_) hrest))
    · obtain ⟨st, hst, hd, hfree⟩ := hd.states hT hproxy
      obtain rfl := List.mem_singleton.mp hst
      exact ⟨fun hstrict => hfree hstrict _ rfl, hd⟩
    · refine ⟨frame, List.mem_cons_self, ⟨_, hnext, List.mem_singleton_self _, ?_⟩,
        hnote _ (pc + 1) (by omega) (by omega) d hd.2⟩
      rintro hstrict g hg
      cases hg
      exact hd.1 hstrict

theorem sizeStmts_proxies (p : Option Provenance) (f : Frame) (routes : List Route)
    (after : Label) : sizeStmts (proxies p f routes after) = 1 + 2 * routes.length := by
  have hroutes : sizeStmts (routes.flatMap fun x =>
      [Made.label p x.proxy, callCleanup p f, .goto (.made p) x.next]) = 2 * routes.length := by
    induction routes with
    | nil => rfl
    | cons x rest ih =>
      rw [List.flatMap_cons, sizeStmts_append, ih]
      simp only [sizeStmts, sizeStmt, Made.label, callCleanup_eq, List.length_cons]
      omega
  rw [proxies, List.cons_append, sizeStmts, sizeStmts_append, hroutes]
  simp [sizeStmts, sizeStmt, Made.label, Made.goto]

/-- What stands behind a frame. -/
theorem spec_ways (H : Tracks S plan owner root element r I entered) (hT : T.Functional)
    {frame : Int} {c : Contents} {f : Frame} (hlevel : Level root frame c) (hf : f ∈ c.children)
    {p : Option Provenance} {ways : List Stmt} (hways : Ways T frame p f ways)
    (hnote : ∀ φ, S.Outlasts (fun d => d.At r (I φ)) pc (sizeStmts ways)) :
    Spec (waysOutOf T r I free strict frame ⟨[], [f]⟩) (Arrives T r I free strict)
      (labelsStmts ways) (fun d => d.At r (I (.inState frame)))
      (fun d => d.At r (I (.inState frame))) (S.pass scope pc near ways) := by
  rcases hways with rfl | ⟨routes, after, rfl, hafter, hroutes⟩
  · exact .nil
  · rw [sizeStmts_proxies] at hnote
    refine .cons rfl (.goto fun d hd => ?_) (spec_routes H hT hlevel hf p hafter routes (pc + 1) []
      hroutes fun φ => (hnote φ).part (by omega) (by omega))
    exact ⟨frame, List.mem_cons_self,
      ⟨_, hafter, List.mem_singleton_self _, fun _ g hg => nomatch hg⟩,
      hnote _ pc (by omega) (by omega) d hd⟩

/-- The states inside a frame are those of the frame and of what is in it. -/
theorem mem_states_frame {f : Frame} {s : Int} : s ∈ Contents.states ⟨[], [f]⟩ ↔
    s ∈ f.state :: Contents.states ⟨f.suspensions, f.children⟩ := by
  simp [Contents.states, Frame.liveStatesAll, Frame.liveStates_eq]

theorem Frame.resumeStates_eq (f : Frame) :
    f.resumeStates = Contents.resumeStates ⟨f.suspensions, f.children⟩ := by
  cases f
  rfl

mutual

theorem Frame.liveStates_of_resume : ∀ {f : Frame} {s : Int}, s ∈ f.resumeStates →
    s ∈ f.liveStates
  | .mk .., s, hs => by
    rw [Frame.resumeStates, List.mem_append] at hs
    rw [Frame.liveStates, List.cons_append, List.mem_cons, List.mem_append]
    exact .inr (hs.imp id Frame.liveStatesAll_of_resume)

theorem Frame.liveStatesAll_of_resume : ∀ {fs : List Frame} {s : Int},
    s ∈ Frame.resumeStatesAll fs → s ∈ Frame.liveStatesAll fs
  | [], _, hs => nomatch hs
  | f :: rest, s, hs => by
    rw [Frame.resumeStatesAll, List.mem_append] at hs
    rw [Frame.liveStatesAll, List.mem_append]
    exact hs.imp Frame.liveStates_of_resume Frame.liveStatesAll_of_resume

end

/-- The machine can suspend in some of its states. -/
theorem Contents.states_of_resume {c : Contents} {s : Int} (h : s ∈ c.resumeStates) :
    s ∈ c.states := by
  rw [Contents.resumeStates, List.mem_append] at h
  rw [Contents.states, List.mem_append]
  exact h.imp id Frame.liveStatesAll_of_resume

/-- A frame: it is entered in the state of the frame around or resumed in one inside, and left in
the state of the frame around. -/
theorem spec_region (H : Tracks S plan owner root element r I entered) (hT : T.Functional)
    {frame : Int} {o body : Origin} {f : Frame} {start : Label} {b' : Block} {ways : List Stmt}
    (hsite : Site S root entered frame ⟨[], [f]⟩ pc
      (sizeStmt (region plan o body f start b'.statements ways))
      (flattenStmt pc (region plan o body f start b'.statements ways)).labels)
    (hentry : T (some f.entry) (.inner (f.state :: f.resumeStates)))
    (hstart : T (some start) (.inner [f.state]))
    (hreached : Reached T ⟨f.suspensions, f.children⟩) (hways : Ways T frame o.provenance f ways)
    (hlabel : S.label (some f.entry) = pc + 1)
    (hopening : ∀ φ, S.Outlasts (fun d => d.At r (I φ)) (pc + 1) 1)
    (hbehind : ∀ φ, S.Outlasts (fun d => d.At r (I φ)) (pc + 2 + sizeBlock b')
      (1 + sizeStmts ways))
    (hinner : Spec (waysOutOf T r I free strict f.state ⟨f.suspensions, f.children⟩)
      (Arrives T r I free strict) (labelsBlock b') (fun d => d.At r (I (.inState f.state)))
      (fun d => d.At r (I (.inState f.state))) (S.passBlock scope (pc + 2) [some start] b')) :
    Spec (waysOutOf T r I free strict frame ⟨[], [f]⟩) (Arrives T r I free strict)
      (labelsStmt (region plan o body f start b'.statements ways))
      (fun d => d.At r (I (.inState frame))) (fun d => d.At r (I (.inState frame)))
      (S.exec scope pc near (region plan o body f start b'.statements ways)) := by
  obtain ⟨whole, hlevel, -, hchildren⟩ := hsite.level
  have hf : f ∈ whole.children := hchildren f List.mem_cons_self
  have hset : Spec (waysOutOf T r I free strict frame ⟨[], [f]⟩) (Arrives T r I free strict)
      (labelsStmt (plan.setState f.state)) (fun d => d.At r (I (.inState frame)))
      (fun d => d.At r (I (.inState f.state))) (S.exec scope pc near (plan.setState f.state)) :=
    spec_setState H (H.enter hlevel hf pc hlabel)
  have hentered : Spec (waysOutOf T r I free strict frame ⟨[], [f]⟩) (Arrives T r I free strict)
      (labelsStmt (Made.label o.provenance f.entry)) (fun d => d.At r (I (.inState f.state)))
      (fun d => ∃ s ∈ f.state :: f.resumeStates, d.At r (I (.inState s)))
      (S.exec scope (pc + 1) [] (Made.label o.provenance f.entry)) := by
    refine .label (fun d hd => ⟨f.state, List.mem_cons_self, hd⟩) fun d hd => ?_
    obtain ⟨s, hs, hd, -⟩ := hd.states hT hentry
    exact ⟨s, hs, hd⟩
  have hdispatch : Spec (waysOutOf T r I free strict f.state ⟨f.suspensions, f.children⟩)
      (Arrives T r I free strict) (labelsStmt (.dispatch (.made o.provenance) plan.stateRef
        (Contents.resumeCases ⟨f.suspensions, f.children⟩) (some start)))
      (fun d => ∃ s ∈ f.state :: f.resumeStates, d.At r (I (.inState s))) (fun _ => False)
      (S.exec scope (pc + 1 + 0) [some f.entry] (.dispatch (.made o.provenance) plan.stateRef
        (Contents.resumeCases ⟨f.suspensions, f.children⟩) (some start))) := by
    refine spec_dispatch H (fun s => hopening _ (pc + 1) (by omega) (by omega)) fun s hs d hd => ?_
    obtain ⟨states, hstates, hmem⟩ := hreached.caseLabel hstart (f.resumeStates_eq ▸ hs)
    refine ⟨s, ?_, ⟨_, hstates, hmem, fun _ g hg => nomatch hg⟩, hd⟩
    rw [f.resumeStates_eq] at hs
    exact (List.mem_cons.mp hs).elim (fun h => h ▸ List.mem_cons_self) fun h =>
      List.mem_cons_of_mem _ (Contents.states_of_resume h)
  have hblock : Spec (waysOutOf T r I free strict f.state ⟨f.suspensions, f.children⟩)
      (Arrives T r I free strict) (labelsStmt (.block (.mk body.asGenerated []
        (.dispatch (.made o.provenance) plan.stateRef
          (Contents.resumeCases ⟨f.suspensions, f.children⟩) (some start) ::
            Made.label o.provenance start :: b'.statements))))
      (fun d => ∃ s ∈ f.state :: f.resumeStates, d.At r (I (.inState s)))
      (fun d => d.At r (I (.inState f.state)))
      (S.exec scope (pc + 1 + 0) [some f.entry] (.block (.mk body.asGenerated []
        (.dispatch (.made o.provenance) plan.stateRef
          (Contents.resumeCases ⟨f.suspensions, f.children⟩) (some start) ::
            Made.label o.provenance start :: b'.statements)))) := by
    have hstatements : Spec (waysOutOf T r I free strict f.state ⟨f.suspensions, f.children⟩)
        (Arrives T r I free strict) (labelsStmts b'.statements)
        (fun d => d.At r (I (.inState f.state))) (fun d => d.At r (I (.inState f.state)))
        (S.pass scope (pc + 1 + 0 + 1 + 0) [some start] b'.statements) := by
      cases b' with
      | absent => exact hinner
      | mk => exact hinner
    refine .block ?_ fun p l d hd => arrives_of_jump hd scope p _
    refine .cons rfl hdispatch (.cons rfl (.label (fun d hd => hd.elim) fun d hd => ?_) hstatements)
    obtain ⟨s, hs, hd, -⟩ := hd.states hT hstart
    rw [← List.mem_singleton.mp hs]
    exact hd
  have hwithin : (waysOutOf T r I free strict f.state ⟨f.suspensions, f.children⟩).Within
      (waysOutOf T r I free strict frame ⟨[], [f]⟩) :=
    waysOutOf_within (fun s hs => List.mem_cons_of_mem _ (mem_states_frame.mpr hs))
      fun s hs => mem_states_frame.mpr (List.mem_cons_of_mem _ hs)
  have hcall : ∀ q near, q = pc + 2 + sizeBlock b' →
      Spec (waysOutOf T r I free strict frame ⟨[], [f]⟩) (Arrives T r I free strict)
        (labelsStmt (callCleanup o.provenance f)) (fun d => d.At r (I (.inState f.state)))
        (fun d => d.At r (I (.inState frame)))
        (S.exec scope q near (callCleanup o.provenance f)) := by
    rintro q near rfl
    refine Spec.mono (spec_callCleanup H hlevel hf True (hbehind _ (pc + 2 + sizeBlock b') (by omega)
      (by omega)) ?_ o.provenance) (.refl _) (fun d hd => ⟨trivial, hd⟩) fun d hd => hd.2
    exact fun d hd => ⟨frame, List.mem_cons_self, hd⟩
  have hleave : ∀ q near, q = pc + 2 + sizeBlock b' + 1 →
      Spec (waysOutOf T r I free strict frame ⟨[], [f]⟩) (Arrives T r I free strict)
        (labelsStmts ways) (fun d => d.At r (I (.inState frame)))
        (fun d => d.At r (I (.inState frame))) (S.pass scope q near ways) := by
    rintro q near rfl
    exact spec_ways H hT hlevel hf hways fun φ => (hbehind φ).part (by omega) (by omega)
  have hsize : sizeStmt (.block (.mk body.asGenerated [] (.dispatch (.made o.provenance)
      plan.stateRef (Contents.resumeCases ⟨f.suspensions, f.children⟩) (some start) ::
        Made.label o.provenance start :: b'.statements))) = 1 + sizeBlock b' := by
    simp [sizeStmt, sizeBlock, sizeStmts, Made.label, Block.sizeBlock_statements]
  refine .list ?_ fun p l d hd => arrives_of_jump hd scope p _
  refine .cons rfl hset (.cons rfl hentered (.cons hsize (hblock.mono hwithin (fun d hd => hd)
    fun d hd => hd) (.cons rfl (hcall _ _ ?_) (hleave _ _ ?_))))
  · show pc + 1 + 0 + (1 + sizeBlock b') = pc + 2 + sizeBlock b'
    omega
  · show pc + 1 + 0 + (1 + sizeBlock b') + 1 = pc + 2 + sizeBlock b' + 1
    omega

/-- A statement of one instruction in a part without suspensions. -/
theorem spec_leaf (H : Tracks S plan owner root element r I entered) {frame : Int} {s : Stmt}
    (hs : isLeaf s = true) {labels : List (Option Label × Nat)}
    (hsite : Site S root entered frame {} pc 1 labels)
    (h : (S.leaf pc s).Meets (fun d => d.At r (I (.inState frame)))
      (X.Ends fun d => d.At r (I (.inState frame)))) :
    Spec X place (labelsStmt s) (fun d => d.At r (I (.inState frame)))
      (fun d => d.At r (I (.inState frame))) (S.exec scope pc near s) :=
  .leaf hs _ (hsite.outlasts rfl H _ pc (by omega) (by omega)) h

/-- A throw. -/
theorem meets_throw (H : Tracks S plan owner root element r I entered) {frame : Int} {o : Origin}
    {e : Expr} (he : e = .absent ∨ OfUser owner e) (hstrict : strict = true → e ≠ .absent) :
    (S.leaf pc (.throw o e)).Meets (fun d => d.At r (I (.inState frame)))
      ((waysOutOf T r I free strict frame {}).Ends fun d => d.At r (I (.inState frame))) := by
  rw [waysOutOf_empty]
  by_cases habsent : e = .absent
  · subst habsent
    have hstops : strict = false := by
      cases strict with
      | false => rfl
      | true => exact absurd rfl (hstrict rfl)
    exact Spec.rethrow (steadfast_at _ _) hstops o
  · have hleaf : S.leaf pc (.throw o e) =
        .effect pc (eval S.ctx e) fun v => .fail pc (.single (.thrown v)) := by
      cases e with
      | absent => exact absurd rfl habsent
      | _ => rfl
    have hkeeps := H.user e (he.resolve_left habsent) frame
    rw [hleaf]
    exact .effect (fun c v d hc hd => hkeeps c hc _ d hd) fun c f d hc hd => hkeeps c hc _ d hd

/-- A branch. -/
theorem meets_branch (H : Tracks S plan owner root element r I entered) {frame : Int} {o : Origin}
    {e : Expr} (he : OfUser owner e) (whenTrue : Bool) {k : Option Label}
    (hk : Leading T free strict frame k) :
    (S.leaf pc (.conditionalGoto o e whenTrue k)).Meets (fun d => d.At r (I (.inState frame)))
      ((waysOutOf T r I free strict frame {}).Ends fun d => d.At r (I (.inState frame))) := by
  rw [waysOutOf_empty]
  have hkeeps : (do Act.ofExcept (← eval S.ctx e).asBool : Act σ Bool).Keeps r
      (I (.inState frame)) := .bind (H.user e he frame) fun v => .ofExcept _
  refine .effect (fun c b d hc hd => ?_) fun c f d hc hd => hkeeps c hc _ d hd
  have hd := hkeeps c hc _ d hd
  split
  · exact ⟨hk, hd⟩
  · exact hd

end Steps

/-! ## Images -/

section Track

variable {S : Setting σ} {plan : Plan} {owner : TypeDecl} {root : Contents}
  {element : Int → Expr → Prop} {r : Ref} {I : Phase → World σ → Prop} {entered : List Frame}
  {T : Table} {free : Option Label → Prop}

mutual

theorem track_stmt (H : Tracks S plan owner root element r I entered) (hT : T.Functional)
    (hexit : free (some plan.exit)) : ∀ {s : Stmt} {frame : Int} {c : Contents} {t : Stmt}
    {strict : Bool}, Image plan T element frame s c t → Ready (OfUser owner) s →
    (strict = true → Orderly free s) → ∀ (scope : Range) (pc : Nat) (near : List (Option Label)),
    Site S root entered frame c pc (sizeStmt t) (flattenStmt pc t).labels →
    Spec (waysOutOf T r I free strict frame c) (Arrives T r I free strict) (labelsStmt t)
      (fun d => d.At r (I (.inState frame))) (fun d => d.At r (I (.inState frame)))
      (S.exec scope pc near t)
  | .block b, _, _, _, _, ⟨_, h, rfl⟩, hs, horderly, scope, pc, near, hsite =>
    .block (track_block H hT hexit (b := b) h hs horderly scope pc near hsite) fun p l d hd =>
      arrives_of_jump hd scope p _
  | .list _ ss, _, _, _, _, ⟨_, h, rfl⟩, hs, horderly, scope, pc, near, hsite =>
    .list (track_all H hT hexit h hs horderly scope pc near hsite) fun p l d hd =>
      arrives_of_jump hd scope p _
  | .yieldReturn .., _, _, _, _, ⟨_, rfl, helement, hresume, rfl⟩, hs, _, _, _, _, hsite =>
    spec_suspend H hT hsite hresume helement hs
  | .yieldBreak _, _, _, _, _, ⟨rfl, _, hk, rfl⟩, _, _, _, _, _, hsite => by
    refine spec_leaf H rfl hsite (.done fun d hd => ⟨_, List.mem_cons_self, ⟨_, hk, ?_, ?_⟩, hd⟩)
    · exact List.mem_singleton_self _
    · rintro - g hg
      cases hg
      exact hexit
  | .goto .., _, _, _, _, ⟨rfl, _, hk, rfl⟩, _, horderly, _, _, _, hsite => by
    refine spec_leaf H rfl hsite (.done fun d hd => ⟨_, List.mem_cons_self, ⟨_, hk, ?_, ?_⟩, hd⟩)
    · exact List.mem_singleton_self _
    · rintro hstrict g hg
      cases hg
      exact horderly hstrict
  | .conditionalGoto .., _, _, _, _, ⟨rfl, _, hk, rfl⟩, hs, horderly, _, _, _, hsite => by
    refine spec_leaf H rfl hsite (meets_branch H hs _ ⟨_, hk, List.mem_singleton_self _, ?_⟩)
    rintro hstrict g hg
    cases hg
    exact horderly hstrict
  | .label .., _, _, _, _, ⟨rfl, hl, rfl⟩, _, _, _, _, _, _ => by
    refine .label (fun d hd => hd) fun d hd => ?_
    obtain ⟨s, hs, hd, -⟩ := hd.states hT hl
    rw [← List.mem_singleton.mp hs]
    exact hd
  | .sequencePoint .., _, _, _, _, ⟨rfl, rfl⟩, _, _, _, _, _, hsite =>
    spec_leaf H rfl hsite (.done fun d hd => hd)
  | .expression o e, frame, _, _, _, ⟨rfl, rfl⟩, hs, _, _, pc, _, hsite =>
    .expression (H.plain e) _ (hsite.outlasts rfl H _ pc (by omega) (by simp [sizeStmt]))
      (fun c v d hc hd => H.user e hs frame c hc _ d hd)
      fun c f d hc hd => ⟨frame, List.mem_cons_self, H.user e hs frame c hc _ d hd⟩
  | .throw .., _, _, _, _, ⟨rfl, rfl⟩, hs, horderly, _, _, _, hsite =>
    spec_leaf H rfl hsite (meets_throw H hs horderly)
  | .try o body catches cleanup, frame, c, t, strict, h, hs, horderly, scope, pc, near, hsite => by
    rw [Image] at h
    split at h
    · obtain ⟨f, start, b', ways, rfl, hentry, hstart, himage, hways, rfl⟩ := h
      obtain ⟨hlabel, hinner, hopening, hbehind⟩ := hsite.region H fun hlabelled =>
        imageBlock_entries himage (pc + 2) hlabelled
      exact spec_region H hT hsite hentry hstart (imageBlock_reached himage) hways hlabel hopening
        hbehind (track_block H hT hexit himage hs.1 (fun hstrict => (horderly hstrict).1) scope
          (pc + 2) [some start] hinner)
    · obtain ⟨rfl, body', catches', cleanup', hbody, hcatches, hcleanup, rfl⟩ := h
      obtain ⟨hreadyBody, hreadyCatches, hreadyCleanup, -⟩ := hs
      have hle := sizeBlock_le_cleanup cleanup'
      rw [sizeStmt] at hsite
      have hfirst := track_block H hT hexit hbody hreadyBody (fun h => (horderly h).1) scope pc near
        (hsite.part (by omega) (by omega) _)
      have hmiddle := track_catches H hT hexit hcatches hreadyCatches (fun h => (horderly h).2.1)
        scope (behindBody pc body') (behindTry pc body' catches' cleanup') []
        (hsite.part (by unfold behindBody; omega) (by unfold behindBody; omega) _)
      -- The finally need not be orderly: whichever way it goes on, the state is that of the frame.
      have hlast : ∀ (strict : Bool) (scope : Range), strict = false →
          Spec (waysOutOf T r I free strict frame {}) (Arrives T r I free strict)
            (labelsBlock cleanup') (fun d => d.At r (I (.inState frame)))
            (fun d => d.At r (I (.inState frame)))
            (S.passBlock scope (behindCatches pc body' catches') [] cleanup') := by
        rintro strict scope rfl
        rcases hcleanup with ⟨-, rfl⟩ | hcleanup
        · exact .still (by rw [Setting.passBlock])
        · refine track_block H hT hexit hcleanup (hreadyCleanup.resolve_left ?_)
            (fun h => absurd h Bool.false_ne_true) scope _ [] (hsite.part ?_ ?_ _)
          · rintro rfl
            exact hcleanup
          · unfold behindCatches behindBody
            omega
          · unfold behindCatches behindBody
            omega
      have hclean : ∀ range, (S.rounds range [] (labelsBlock cleanup') (S.passBlock range
          (behindCatches pc body' catches') [] cleanup') .start).Meets
            (fun d => d.At r (I (.inState frame)))
            ((waysOutOf T r I free false frame {}).Ends fun d => d.At r (I (.inState frame))) :=
        fun range => (hlast false range rfl).rounds (fun p l d _ hd => arrives_of_jump hd range p _)
          (fun _ _ _ hl => absurd hl List.not_mem_nil) .start rfl
      rw [waysOutOf_empty] at hfirst hmiddle hclean ⊢
      refine .tried (steadfast_at _ _) (hsite.outlasts rfl H _) (fun l d hl hd => ⟨frame, hl, hd⟩)
        hfirst hmiddle hclean (fun l hl d hd => ?_) fun hstrict => ?_
      · cases hmode : strict with
        | false => rfl
        | true =>
          rcases hcleanup with ⟨-, rfl⟩ | hcleanup
          · cases hl
          · obtain ⟨hmem, hplace⟩ := imageBlock_labels hcleanup l hl
            obtain ⟨-, -, -, hfree⟩ := hd.states hT hplace
            exact absurd (hfree hmode l rfl) ((horderly hmode).2.2 l hmem)
      · have hspec := hlast strict scope hstrict
        rwa [waysOutOf_empty] at hspec
  | .absent, _, _, _, _, h, _, _, _, _, _, _ | .noOp .., _, _, _, _, h, _, _, _, _, _, _
  | .localDeclaration .., _, _, _, _, h, _, _, _, _, _, _ | .return .., _, _, _, _, h, _, _, _, _, _, _
  | .if .., _, _, _, _, h, _, _, _, _, _, _ | .while .., _, _, _, _, h, _, _, _, _, _, _
  | .break .., _, _, _, _, h, _, _, _, _, _, _ | .continue .., _, _, _, _, h, _, _, _, _, _, _
  | .dispatch .., _, _, _, _, h, _, _, _, _, _, _ | .foreign .., _, _, _, _, h, _, _, _, _, _, _ =>
    h.elim
termination_by structural s => s

theorem track_all (H : Tracks S plan owner root element r I entered) (hT : T.Functional)
    (hexit : free (some plan.exit)) : ∀ {ss : List Stmt} {frame : Int} {c : Contents}
    {ts : List Stmt} {strict : Bool}, ImageAll plan T element frame ss c ts →
    ReadyAll (OfUser owner) ss → (strict = true → OrderlyAll free ss) →
    ∀ (scope : Range) (pc : Nat) (near : List (Option Label)),
    Site S root entered frame c pc (sizeStmts ts) (flattenStmts pc ts).labels →
    Spec (waysOutOf T r I free strict frame c) (Arrives T r I free strict) (labelsStmts ts)
      (fun d => d.At r (I (.inState frame))) (fun d => d.At r (I (.inState frame)))
      (S.pass scope pc near ts)
  | [], _, _, _, _, ⟨rfl, rfl⟩, _, _, _, _, _, _ => .nil
  | _ :: _, _, _, _, _, ⟨a, b, t, ts, h, h', rfl, rfl⟩, hss, horderly, scope, pc, near, hsite => by
    obtain ⟨hfirst, hrest⟩ := hsite.append (image_entries h pc)
      (imageAll_entries h' (pc + sizeStmt t))
    have hone := track_stmt H hT hexit h hss.1 (fun hstrict => (horderly hstrict).1) scope pc near
      hfirst
    have htwo := track_all H hT hexit h' hss.2 (fun hstrict => (horderly hstrict).2) scope
      (pc + sizeStmt t) (follow near t) hrest
    exact .cons rfl (hone.mono (waysOutOf_append_left b) (fun d hd => hd) fun d hd => hd)
      (htwo.mono (waysOutOf_append_right a) (fun d hd => hd) fun d hd => hd)
termination_by structural ss => ss

/-- What is known in each state is carried through the image of a block. -/
theorem track_block (H : Tracks S plan owner root element r I entered) (hT : T.Functional)
    (hexit : free (some plan.exit)) : ∀ {b : Block} {frame : Int} {c : Contents}
    {b' : Block} {strict : Bool}, ImageBlock plan T element frame b c b' →
    ReadyBlock (OfUser owner) b → (strict = true → OrderlyBlock free b) →
    ∀ (scope : Range) (pc : Nat) (near : List (Option Label)),
    Site S root entered frame c pc (sizeBlock b') (flattenBlock pc b').labels →
    Spec (waysOutOf T r I free strict frame c) (Arrives T r I free strict) (labelsBlock b')
      (fun d => d.At r (I (.inState frame))) (fun d => d.At r (I (.inState frame)))
      (S.passBlock scope pc near b')
  | .absent, _, _, _, _, h, _, _, _, _, _, _ => h.elim
  | .mk _ _ _, _, _, _, _, ⟨ts, h, rfl⟩, hb, horderly, scope, pc, near, hsite =>
    track_all H hT hexit h hb.2 horderly scope pc near hsite
termination_by structural b => b

theorem track_catches (H : Tracks S plan owner root element r I entered) (hT : T.Functional)
    (hexit : free (some plan.exit)) : ∀ {cs : List Catch} {frame : Int} {ds : List Catch}
    {strict : Bool}, ImageCatches plan T element frame cs {} ds →
    ReadyCatches (OfUser owner) cs → (strict = true → OrderlyCatches free cs) →
    ∀ (scope : Range) (pc behind : Nat) (labels : List (Option Label × Nat)),
    Site S root entered frame {} pc (sizeCatches ds) labels →
    Spec (waysOutOf T r I free strict frame {}) (Arrives T r I free strict) (labelsCatches ds)
      (fun d => d.At r (I (.inState frame))) (fun d => d.At r (I (.inState frame)))
      (S.execCatches scope pc behind ds)
  | [], _, _, _, ⟨_, rfl⟩, _, _, _, _, _, _, _ => .still (by rw [Setting.execCatches])
  | .mk .. :: _, frame, _, strict, ⟨_, _, body', ds, h, h', hc, rfl⟩, hcs, horderly, scope, pc, behind,
      labels, hsite => by
    obtain ⟨rfl, rfl⟩ := Contents.append_eq_empty hc
    have hnote := hsite.outlasts rfl H (.inState frame)
    rw [sizeCatches] at hsite
    have hfirst := track_block H hT hexit h hcs.1 (fun h => (horderly h).1) scope (pc + 1) []
      (hsite.part (by omega) (by omega) _)
    have hrest := track_catches H hT hexit h' hcs.2 (fun h => (horderly h).2) scope
      (pc + sizeBlock body' + 3) behind [] (hsite.part (by omega) (by omega) _)
    rw [waysOutOf_empty] at hfirst hrest ⊢
    exact .handlers (steadfast_at _ _) hnote (fun l d hl hd => ⟨frame, hl, hd⟩) hfirst hrest
termination_by structural cs => cs

end

end Track

end Resumable.StateMachine
