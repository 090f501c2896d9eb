import Resumable.Proofs.StateMachine.Bodies
import Resumable.Proofs.StateMachine.Numbering

/-!
# What the conversion makes of each statement

The conversion leaves most statements as they are and puts others in the place of suspensions, of
jumps and of frames.  `Image` says this along the tree, together with a table that has a place for
each label: a label of the user's is reached in the state of the frame that it stands in, the label
of a suspension point in the state of the suspension, and the label before a frame in every state
inside the frame.  Each jump of the converted body goes to a label that is reached in the state of
the frame of the jump, and that leads to the label which the user has jumped to
(`convertBlock_image`).
-/

set_option autoImplicit false

namespace Resumable.StateMachine

open Resumable.Report Resumable.Symbol Resumable.Tree Resumable.Source Resumable.Lowering

/-! ## Tables -/

/-- What is known of a label: the states in which it is reached, and the label of the user's that a
jump to it leads to, if the user can jump to it. -/
structure Place where
  states : List Int
  goal : Option (Option Label)
  deriving DecidableEq, Repr

/-- Which labels have which places. -/
abbrev Table := Option Label → Place → Prop

/-- The table has the entries. -/
def Table.Has (T : Table) (entries : List (Option Label × Place)) : Prop :=
  ∀ x ∈ entries, T x.1 x.2

theorem Table.has_append {T : Table} {a b : List (Option Label × Place)} :
    T.Has (a ++ b) ↔ T.Has a ∧ T.Has b := by
  simp only [Table.Has, List.mem_append, or_imp, forall_and]

theorem Table.has_cons {T : Table} {x : Option Label × Place} {a : List (Option Label × Place)} :
    T.Has (x :: a) ↔ T x.1 x.2 ∧ T.Has a := by
  simp only [Table.Has, List.mem_cons, forall_eq_or_imp]

/-- Each label has one place at most. -/
def Table.Functional (T : Table) : Prop := ∀ l p q, T l p → T l q → p = q

/-- The table of the entries. -/
def Table.ofEntries (entries : List (Option Label × Place)) : Table := fun l place =>
  (l, place) ∈ entries

theorem Table.ofEntries_functional {entries : List (Option Label × Place)}
    (h : (entries.map Prod.fst).Nodup) : (ofEntries entries).Functional := by
  intro l p q hp hq
  have hp : entries.lookup l = some p := Machine.lookup_of_nodup h hp
  have hq : entries.lookup l = some q := Machine.lookup_of_nodup h hq
  exact Option.some.inj (hp.symm.trans hq)

/-- The place of a label that the user's jumps lead to by way of it, in a frame. -/
def Place.leading (frame : Int) (l : Option Label) : Place := ⟨[frame], some l⟩

/-- The place of a label that only the machine jumps to. -/
def Place.inner (states : List Int) : Place := ⟨states, none⟩

/-! ## Images -/

/-- What stands behind a frame: its proxies, if there are any.  Each is reached in the state of the
frame and goes on in the frame around, towards the same label. -/
def Ways (T : Table) (frame : Int) (p : Option Provenance) (f : Frame) (ways : List Stmt) : Prop :=
  ways = [] ∨ ∃ routes after, ways = proxies p f routes after ∧
    T (some after) (.inner [frame]) ∧
    ∀ r ∈ routes, T (some r.proxy) (.leading f.state r.target) ∧
      T r.next (.leading frame r.target)

mutual

/-- What the conversion makes of a statement in the frame with the state `frame`, if the suspension
with a number gives the element that `element` says. -/
def Image (plan : Plan) (T : Table) (element : Int → Expr → Prop) (frame : Int) :
    Stmt → Contents → Stmt → Prop
  | .block b, c, t => ∃ b', ImageBlock plan T element frame b c b' ∧ t = .block b'
  | .list o ss, c, t => ∃ ts, ImageAll plan T element frame ss c ts ∧ t = .list o ts
  | .yieldReturn o e, c, t => ∃ s, c = ⟨[s], []⟩ ∧ element s.state e ∧
    T (some s.resume) (.inner [s.state]) ∧ t = suspend plan o e s frame
  | .yieldBreak o, c, t => c = {} ∧ ∃ k, T k (.leading frame (some plan.exit)) ∧
    t = .goto o.asGenerated k
  | .goto o l, c, t => c = {} ∧ ∃ k, T k (.leading frame l) ∧ t = .goto o k
  | .conditionalGoto o e whenTrue l, c, t => c = {} ∧ ∃ k, T k (.leading frame l) ∧
    t = .conditionalGoto o e whenTrue k
  | .label o l, c, t => c = {} ∧ T l (.leading frame l) ∧ t = .label o l
  | .try o body catches cleanup, c, t =>
    if framed body cleanup then ∃ f start b' ways, c = ⟨[], [f]⟩ ∧
      T (some f.entry) (.inner (f.state :: f.resumeStates)) ∧
      T (some start) (.inner [f.state]) ∧
      ImageBlock plan T element f.state body ⟨f.suspensions, f.children⟩ b' ∧
      Ways T frame o.provenance f ways ∧ t = region plan o body.origin f start b'.statements ways
    else c = {} ∧ ∃ body' catches' cleanup', ImageBlock plan T element frame body {} body' ∧
      ImageCatches plan T element frame catches {} catches' ∧
      (cleanup = .absent ∧ cleanup' = .absent ∨
        ImageBlock plan T element frame cleanup {} cleanup') ∧
      t = .try o body' catches' cleanup'
  | .sequencePoint o place, c, t => c = {} ∧ t = .sequencePoint o place
  | .expression o e, c, t => c = {} ∧ t = .expression o e
  | .throw o e, c, t => c = {} ∧ t = .throw o e
  | .absent, _, _ | .noOp .., _, _ | .localDeclaration .., _, _ | .return .., _, _ | .if .., _, _
  | .while .., _, _ | .break .., _, _ | .continue .., _, _ | .dispatch .., _, _
  | .foreign .., _, _ => False
termination_by structural s => s

/-- What the conversion makes of statements. -/
def ImageAll (plan : Plan) (T : Table) (element : Int → Expr → Prop) (frame : Int) :
    List Stmt → Contents → List Stmt → Prop
  | [], c, ts => c = {} ∧ ts = []
  | s :: rest, c, ts => ∃ a b t ts', Image plan T element frame s a t ∧
    ImageAll plan T element frame rest b ts' ∧ c = a.append b ∧ ts = t :: ts'
termination_by structural ss => ss

/-- What the conversion makes of a block. -/
def ImageBlock (plan : Plan) (T : Table) (element : Int → Expr → Prop) (frame : Int) :
    Block → Contents → Block → Prop
  | .absent, _, _ => False
  | .mk o locals ss, c, b' => ∃ ts, ImageAll plan T element frame ss c ts ∧ b' = .mk o locals ts
termination_by structural b => b

/-- What the conversion makes of handlers. -/
def ImageCatches (plan : Plan) (T : Table) (element : Int → Expr → Prop) (frame : Int) :
    List Catch → Contents → List Catch → Prop
  | [], c, ds => c = {} ∧ ds = []
  | .mk o l body :: rest, c, ds => ∃ a b body' ds', ImageBlock plan T element frame body a body' ∧
    ImageCatches plan T element frame rest b ds' ∧ c = a.append b ∧ ds = .mk o l body' :: ds'
termination_by structural cs => cs

end

/-! ## Steps of the conversion -/

/-- The conversion of a part of the frame `st` with the contents `c`, whenever it goes through,
leaves further ways out of the scopes and gives something with the labels `landings`.  `own` are
labels that stand directly in the frame.  In a table with the entries of these labels and of what
can be reached in the frame, what it gives is the image. -/
def Images {α : Type} (plan : Plan) (st : Int) (c : Contents) (own : List (Option Label))
    (x : Convert α) (landings : α → List (Option Label)) (image : Table → α → Prop) : Prop :=
  ∀ rest routes outer n a scopes' m, Linked plan.owners (⟨st, rest, routes⟩ :: outer) →
    x (⟨st, c.append rest, routes⟩ :: outer) n = (.ok (a, scopes'), m) →
    ∃ routes' outer' entries, scopes' = ⟨st, rest, routes'⟩ :: outer' ∧
      Grown (⟨st, rest, routes⟩ :: outer) scopes' ∧ Linked plan.owners scopes' ∧
      (entries.map Prod.fst).Perm (landings a) ∧ (∀ l ∈ own, (l, .leading st l) ∈ entries) ∧
      ∀ T : Table, T.Has entries →
        (∀ l, plan.owners.lookup l = some st → T l (.leading st l)) →
        (∀ r ∈ routes', T (some r.proxy) (.leading st r.target)) → image T a

namespace Images

variable {α β γ : Type} {plan : Plan} {st : Int} {c c' : Contents} {own own' : List (Option Label)}
  {x : Convert α} {y : Convert β} {landings : α → List (Option Label)}
  {landings' : β → List (Option Label)} {landings'' : γ → List (Option Label)}
  {image : Table → α → Prop} {image' : Table → β → Prop} {image'' : Table → γ → Prop}

/-- A part that stays as it is. -/
theorem still {a : α} (entries : List (Option Label × Place))
    (hlandings : (entries.map Prod.fst).Perm (landings a))
    (hown : ∀ l ∈ own, (l, .leading st l) ∈ entries) (himage : ∀ T : Table, T.Has entries → image T a) :
    Images plan st {} own (pure a) landings image := by
  intro rest routes outer n a' scopes' m hlinked h
  obtain ⟨rfl, rfl, -⟩ := Stateful.pure_ok.mp h
  exact ⟨routes, outer, entries, rfl, .refl _, hlinked, hlandings, hown, fun T hT _ _ => himage T hT⟩

/-- A jump. -/
theorem jump (o : Origin) (target : Option Label) {g : Option Label → α}
    (hlandings : ∀ k, landings (g k) = [])
    (himage : ∀ (T : Table) k, T k (.leading st target) → image T (g k)) :
    Images plan st {} [] (do
      let k ← StateMachine.jump plan o target
      return g k) landings image := by
  intro rest routes outer n a scopes' m hlinked h
  obtain ⟨k, scopes₁, i, hjump, h⟩ := Stateful.bind_ok.mp h
  obtain ⟨rfl, rfl, -⟩ := Stateful.pure_ok.mp h
  obtain ⟨-, hrouting⟩ := (jump_converts plan o target hlinked).forward k scopes' i hjump
  obtain ⟨routes', outer', rfl, -, -⟩ := hrouting.grown.exists_cons
  have hgrown : Grown (⟨st, rest, routes⟩ :: outer) (⟨st, rest, routes'⟩ :: outer') :=
    hrouting.grown
  refine ⟨routes', outer', [], rfl, hgrown, hrouting.linked, ?_, fun l hl => (nomatch hl), ?_⟩
  · rw [hlandings]
    exact .nil
  · intro T _ howners hroutes
    obtain ⟨_, hs, ⟨rfl, hhere⟩ | ⟨r, hr, rfl, rfl⟩⟩ := hrouting.reaches
    · cases hs
      exact himage T _ (howners _ hhere)
    · cases hs
      exact himage T _ (hroutes r hr)

/-- One part after another. -/
theorem append (h : Images plan st c own x landings image)
    (h' : Images plan st c' own' y landings' image') {g : α → β → γ}
    (hlandings : ∀ a b, (landings a ++ landings' b).Perm (landings'' (g a b)))
    (himage : ∀ T a b, image T a → image' T b → image'' T (g a b)) :
    Images plan st (c.append c') (own ++ own') (do
      let a ← x
      let b ← y
      return g a b) landings'' image'' := by
  intro rest routes outer n d scopes'' m hlinked hstep
  have hassoc : (c.append c').append rest = c.append (c'.append rest) := by
    simp [Contents.append]
  rw [hassoc] at hstep
  obtain ⟨a, scopes₁, i, hx, hstep⟩ := Stateful.bind_ok.mp hstep
  obtain ⟨b, scopes₂, j, hy, hstep⟩ := Stateful.bind_ok.mp hstep
  obtain ⟨rfl, rfl, -⟩ := Stateful.pure_ok.mp hstep
  obtain ⟨routes₁, outer₁, entries, rfl, ⟨-, -, hmore, houter⟩, hlinked₁, hfst, hown, hleft⟩ :=
    h (c'.append rest) routes outer n a scopes₁ i hlinked hx
  obtain ⟨routes₂, outer₂, entries', rfl, hgrown, hlinked₂, hfst', hown', hright⟩ :=
    h' rest routes₁ outer₁ i b _ j hlinked₁ hy
  refine ⟨routes₂, outer₂, entries ++ entries', rfl, ?_, hlinked₂, ?_, ?_, ?_⟩
  · exact Grown.trans (b := ⟨st, rest, routes₁⟩ :: outer₁) ⟨rfl, rfl, hmore, houter⟩ hgrown
  · rw [List.map_append]
    exact (hfst.append hfst').trans (hlandings a b)
  · intro l hl
    rw [List.mem_append]
    exact (List.mem_append.mp hl).imp (hown l) (hown' l)
  · intro T hT howners hroutes
    obtain ⟨hfirst, hsecond⟩ := Table.has_append.mp hT
    obtain ⟨-, -, ⟨more, hmore'⟩, -⟩ := hgrown
    refine himage T a b (hleft T hfirst howners fun r hr => hroutes r ?_)
      (hright T hsecond howners hroutes)
    have hmem : r ∈ routes₁ ++ more := List.mem_append_left _ hr
    rwa [← show routes₂ = routes₁ ++ more from hmore'] at hmem

/-- A part that is made into another one. -/
theorem map (h : Images plan st c own x landings image) {g : α → β}
    (hlandings : ∀ a, (landings a).Perm (landings' (g a)))
    (himage : ∀ T a, image T a → image' T (g a)) :
    Images plan st c own (do
      let a ← x
      return g a) landings' image' := by
  intro rest routes outer n d scopes' m hlinked hstep
  obtain ⟨a, scopes₁, i, hx, hstep⟩ := Stateful.bind_ok.mp hstep
  obtain ⟨rfl, rfl, -⟩ := Stateful.pure_ok.mp hstep
  obtain ⟨routes₁, outer₁, entries, hscopes, hgrown, hlinked₁, hfst, hown, hx⟩ :=
    h _ _ _ _ _ _ _ hlinked hx
  exact ⟨routes₁, outer₁, entries, hscopes, hgrown, hlinked₁, hfst.trans (hlandings a), hown,
    fun T hT howners hroutes => himage T a (hx T hT howners hroutes)⟩

theorem weaken (h : Images plan st c own x landings image) (hown : ∀ l ∈ own', l ∈ own)
    {image' : Table → α → Prop} (himage : ∀ T a, image T a → image' T a) :
    Images plan st c own' x landings image' := by
  intro rest routes outer n d scopes' m hlinked hstep
  obtain ⟨routes₁, outer₁, entries, hscopes, hgrown, hlinked₁, hfst, hentries, hx⟩ :=
    h _ _ _ _ _ _ _ hlinked hstep
  exact ⟨routes₁, outer₁, entries, hscopes, hgrown, hlinked₁, hfst,
    fun l hl => hentries l (hown l hl),
    fun T hT howners hroutes => himage T d (hx T hT howners hroutes)⟩

/-- A part that is not converted. -/
theorem of_fail {cause : Report.Cause} {span : Text.Span} :
    Images plan st c own (Convert.fail cause span) landings image := by
  intro rest routes outer n a scopes' m _ h
  cases h

/-- A frame, whose try block is converted in its state. -/
theorem region (o : Origin) {body cleanup : Block} (catches : List Catch)
    (hframe : isFrame body cleanup = true) {f : Frame}
    (howners : ∀ l, plan.owners.lookup l = some f.state ↔ l ∈ ownBlock body)
    {image : Table → Block → Prop}
    (h : Images plan f.state ⟨f.suspensions, f.children⟩ (ownBlock body) (convertBlock plan body)
      landingsBlock image) {image' : Table → Stmt → Prop}
    (himage : ∀ T start b' ways, T (some f.entry) (.inner (f.state :: f.resumeStates)) →
      T (some start) (.inner [f.state]) → image T b' → Ways T st o.provenance f ways →
      image' T (StateMachine.region plan o body.origin f start b'.statements ways)) :
    Images plan st ⟨[], [f]⟩ [] (convertStmt plan (.try o body catches cleanup)) landingsStmt
      image' := by
  intro rest routes outer n t scopes' m hlinked hstep
  rw [convertStmt, if_pos hframe] at hstep
  obtain ⟨f', scopes₁, n₁, hnext, hstep⟩ := Stateful.bind_ok.mp hstep
  cases hnext
  obtain ⟨start, scopes₂, n₂, hstart, hstep⟩ := Stateful.bind_ok.mp hstep
  cases hstart
  obtain ⟨u, scopes₃, n₃, henter, hstep⟩ := Stateful.bind_ok.mp hstep
  cases henter
  obtain ⟨b', scopes₄, n₄, hbody, hstep⟩ := Stateful.bind_ok.mp hstep
  have hinside : Linked plan.owners (⟨f.state, {}, []⟩ :: ⟨st, rest, routes⟩ :: outer) :=
    ⟨fun r hr => (nomatch hr), hlinked⟩
  rw [show (⟨f.suspensions, f.children⟩ : Contents) =
    Contents.append ⟨f.suspensions, f.children⟩ {} from (Contents.append_nil _).symm] at hbody
  obtain ⟨inside, outer₁, entries, rfl, ⟨-, -, -, hgrown⟩, ⟨hnext, hlinked₁⟩, hfst, hown, hinner⟩ :=
    h _ _ _ _ _ _ _ hinside hbody
  obtain ⟨routes', outer', rfl, hmore, houter⟩ := hgrown.exists_cons
  obtain ⟨routes₂, scopes₅, n₅, hleave, hstep⟩ := Stateful.bind_ok.mp hstep
  cases hleave
  obtain ⟨ways, scopes₆, n₆, hways, hstep⟩ := Stateful.bind_ok.mp hstep
  obtain ⟨rfl, rfl, -⟩ := Stateful.pure_ok.mp hstep
  -- The proxies, if there are any, with the label behind them.
  have hbehind : ∃ after : List (Option Label × Place), scopes' = ⟨st, rest, routes'⟩ :: outer' ∧
      landingsStmts ways = inside.map (fun r => some r.proxy) ++ after.map Prod.fst ∧
      ∀ T : Table, T.Has after →
        (∀ r ∈ inside, T (some r.proxy) (.leading f.state r.target) ∧
          T r.next (.leading st r.target)) → Ways T st o.provenance f ways := by
    cases inside with
    | nil =>
      cases hways
      exact ⟨[], rfl, rfl, fun T _ _ => .inl rfl⟩
    | cons r rs =>
      cases hways
      refine ⟨[(some (.generated "after" (n₄ + 1 : Nat)), .inner [st])], rfl,
        landingsStmts_proxies .., fun T hT hroutes => .inr ⟨_, _, rfl, ?_, hroutes⟩⟩
      exact hT _ List.mem_cons_self
  obtain ⟨after, rfl, hlandings, hways⟩ := hbehind
  refine ⟨routes', outer', (some f.entry, .inner (f.state :: f.resumeStates)) ::
    (some (.generated "body" (n + 1 : Nat)), .inner [f.state]) :: (entries ++
      (inside.map (fun r => (some r.proxy, .leading f.state r.target)) ++ after)), rfl,
    ⟨rfl, rfl, hmore, houter⟩, hlinked₁, ?_, fun l hl => (nomatch hl), ?_⟩
  · rw [landingsStmt_region, hlandings]
    simp only [List.map_cons, List.map_append, List.map_map, Function.comp_def]
    refine .cons _ (.cons _ (.append_right _ ?_))
    cases b' <;> exact hfst
  · intro T hT hhere hroutes
    obtain ⟨hentry, hT⟩ := Table.has_cons.mp hT
    obtain ⟨hstart, hT⟩ := Table.has_cons.mp hT
    obtain ⟨hentries, hT⟩ := Table.has_append.mp hT
    obtain ⟨hproxies, hafter⟩ := Table.has_append.mp hT
    have hproxy : ∀ r ∈ inside, T (some r.proxy) (.leading f.state r.target) := fun r hr =>
      hproxies _ (List.mem_map.mpr ⟨r, hr, rfl⟩)
    refine himage T _ b' ways hentry hstart (hinner T hentries (fun l hl => ?_) hproxy)
      (hways T hafter fun r hr => ⟨hproxy r hr, ?_⟩)
    · exact hentries _ (hown l ((howners l).mp hl))
    · obtain ⟨_, hs, ⟨heq, howner⟩ | ⟨r', hr', htarget, heq⟩⟩ := hnext r hr
      · cases hs
        rw [← heq]
        exact hhere _ howner
      · cases hs
        rw [heq, ← htarget]
        exact hroutes r' hr'

end Images

/-! ## Bodies -/

/-- The elements are those of the suspensions numbered from behind `k` on. -/
def Elements (element : Int → Expr → Prop) (k : Nat) (es : List Expr) : Prop :=
  ∀ i e, es[i]? = some e → element (k + i + 1 : Nat) e

theorem Elements.append {element : Int → Expr → Prop} {k : Nat} {a b : List Expr}
    (h : Elements element k (a ++ b)) :
    Elements element k a ∧ Elements element (k + a.length) b := by
  refine ⟨fun i e hi => h i e ?_, fun i e hi => ?_⟩
  · have hlt : i < a.length := (List.getElem?_eq_some_iff.mp hi).1
    rwa [List.getElem?_append_left hlt]
  · have hmem := h (a.length + i) e (by rw [List.getElem?_append_right (by omega)]; simpa using hi)
    rwa [← Nat.add_assoc] at hmem

variable {plan : Plan} {owner : TypeDecl} {element : Int → Expr → Prop}

mutual

theorem convertStmt_image : ∀ {k : Nat} {s : Stmt} {c : Contents} {st : Int},
    Ready (OfMachine owner) s → Guarded s → Matches owner plan.owners k s c →
    Elements element k (elementsStmt s) →
    Images plan st c (ownStmt s) (convertStmt plan s) landingsStmt
      fun T t => Image plan T element st s c t
  | _, .block b, c, st, hs, hguarded, hmatches, helements =>
    (convertBlock_image (b := b) hs hguarded hmatches helements).map (fun _ => .refl _)
      fun T b' h => ⟨b', h, rfl⟩
  | k, .list o ss, c, st, hs, hguarded, hmatches, helements =>
    (@convertStmts_image k ss c st hs hguarded hmatches helements).map (fun _ => .refl _)
      fun T ts h => ⟨ts, h, rfl⟩
  | k, .yieldReturn o e, c, st, hs, _, hmatches, helements => by
    obtain ⟨resume, rfl⟩ := hmatches
    intro rest routes outer n t scopes' m hlinked hstep
    cases hstep
    refine ⟨routes, outer, [(some resume, .inner [(k + 1 : Nat)])], rfl, .refl _, hlinked, .refl _,
      fun l hl => (nomatch hl), fun T hT _ _ => ⟨_, rfl, ?_, hT _ List.mem_cons_self, rfl⟩⟩
    exact helements 0 e rfl
  | _, .yieldBreak o, c, st, _, _, hmatches, _ => by
    obtain rfl : c = {} := hmatches
    exact Images.jump o (some plan.exit) (fun _ => rfl) fun T k hk => ⟨rfl, k, hk, rfl⟩
  | _, .goto o l, c, st, _, _, hmatches, _ => by
    obtain rfl : c = {} := hmatches
    exact Images.jump o l (fun _ => rfl) fun T k hk => ⟨rfl, k, hk, rfl⟩
  | _, .conditionalGoto o e whenTrue l, c, st, _, _, hmatches, _ => by
    obtain rfl : c = {} := hmatches
    exact Images.jump o l (fun _ => rfl) fun T k hk => ⟨rfl, k, hk, rfl⟩
  | _, .label o l, c, st, _, _, hmatches, _ => by
    obtain rfl : c = {} := hmatches
    refine Images.still [(l, .leading st l)] (.refl _) (fun l' hl' => ?_)
      fun T hT => ⟨rfl, hT _ List.mem_cons_self, rfl⟩
    rw [List.mem_singleton.mp hl']
    exact List.mem_cons_self
  | _, .sequencePoint .., c, st, _, _, hmatches, _ | _, .expression .., c, st, _, _, hmatches, _
  | _, .throw .., c, st, _, _, hmatches, _ => by
    obtain rfl : c = {} := hmatches
    exact Images.still [] (.refl _) (fun l hl => (nomatch hl)) fun T _ => ⟨rfl, rfl⟩
  | k, .try o body catches cleanup, c, st, hs, hguarded, hmatches, helements => by
    have hframe : isFrame body cleanup = framed body cleanup :=
      isFrame_eq (verifiedBlock_of_ready (fun _ => soundExpr_of_machine) hs.1)
    rw [elementsStmt] at helements
    obtain ⟨hfirst, hlast⟩ := helements.append
    obtain ⟨hfirst, hmiddle⟩ := hfirst.append
    cases hframed : framed body cleanup with
    | true =>
      simp only [Matches, hframed, if_true] at hmatches
      obtain ⟨state, entry, method, inner, rfl, -, howners, hinner⟩ := hmatches
      simp only [ownStmt, hframed, if_true]
      refine Images.region o catches (hframe.trans hframed) howners
        (convertBlock_image hs.1 hguarded.2.1 hinner hfirst) ?_
      intro T start b' ways hentry hstart hbody hways
      simp only [Image, hframed, if_true]
      exact ⟨_, start, b', ways, rfl, hentry, hstart, hbody, hways, rfl⟩
    | false =>
      simp only [Matches, hframed, Bool.false_eq_true, if_false] at hmatches
      obtain ⟨rfl, hmatches, hmatches', hmatches''⟩ := hmatches
      rw [List.length_append] at hlast
      have hcleanup : Images plan st {} (ownBlock cleanup) (convertBlock plan cleanup)
          landingsBlock fun T cleanup' => cleanup = .absent ∧ cleanup' = .absent ∨
            ImageBlock plan T element st cleanup {} cleanup' := by
        rcases hs.2.2.1 with rfl | hready
        · exact .still [] (.refl _) (fun l hl => (nomatch hl)) fun T _ => .inl ⟨rfl, rfl⟩
        · exact (convertBlock_image hready hguarded.2.2.2 hmatches'' hlast).weaken
            (fun l hl => hl) fun T _ h => .inr h
      have hbehind : Images plan st {} (ownCatches catches ++ ownBlock cleanup) (do
          let catches' ← convertCatches plan catches
          let cleanup' ← convertBlock plan cleanup
          return (catches', cleanup')) (fun p => landingsCatches p.1 ++ landingsBlock p.2)
          fun T p => ImageCatches plan T element st catches {} p.1 ∧
            (cleanup = .absent ∧ p.2 = .absent ∨ ImageBlock plan T element st cleanup {} p.2) :=
        (convertCatches_image hs.2.1 hguarded.2.2.1 hmatches' hmiddle).append hcleanup
          (fun _ _ => .refl _) fun T _ _ h h' => ⟨h, h'⟩
      have hparts : Images plan st {} ((ownCatches catches ++ ownBlock cleanup) ++ ownBlock body) _
          landingsStmt fun T t => Image plan T element st (.try o body catches cleanup) {} t :=
        hbehind.append (convertBlock_image hs.1 hguarded.2.1 hmatches hfirst)
          (g := fun p body' => .try o body' p.1 p.2)
          (fun p body' => by
            rw [landingsStmt, List.append_assoc (landingsBlock body')]
            exact List.perm_append_comm)
          fun T p body' h h' => by
            simp only [Image, hframed, Bool.false_eq_true, if_false]
            exact ⟨trivial, body', p.1, p.2, h', h.1, h.2, rfl⟩
      rw [convertStmt, hframe, hframed]
      simp only [bind_assoc, pure_bind] at hparts
      refine hparts.weaken (fun l hl => ?_) fun _ _ h => h
      simp only [ownStmt, hframed, Bool.false_eq_true, if_false, List.mem_append] at hl ⊢
      exact or_comm.mp (or_assoc.mp hl)
  | _, .return .., _, _, _, _, _, _ => .of_fail
  | _, .absent, _, _, hs, _, _, _ | _, .noOp .., _, _, hs, _, _, _
  | _, .localDeclaration .., _, _, hs, _, _, _ | _, .if .., _, _, hs, _, _, _
  | _, .while .., _, _, hs, _, _, _ | _, .break .., _, _, hs, _, _, _
  | _, .continue .., _, _, hs, _, _, _ | _, .dispatch .., _, _, hs, _, _, _
  | _, .foreign .., _, _, hs, _, _, _ => hs.elim

theorem convertStmts_image : ∀ {k : Nat} {ss : List Stmt} {c : Contents} {st : Int},
    ReadyAll (OfMachine owner) ss → GuardedAll ss → MatchesAll owner plan.owners k ss c →
    Elements element k (elementsStmts ss) →
    Images plan st c (ownStmts ss) (convertStmts plan ss) landingsStmts
      fun T ts => ImageAll plan T element st ss c ts
  | _, [], _, st, _, _, rfl, _ =>
    Images.still [] (.refl _) (fun l hl => (nomatch hl)) fun T _ => ⟨rfl, rfl⟩
  | _, s :: rest, _, st, hss, hguarded, ⟨a, b, ha, hb, rfl⟩, helements => by
    rw [elementsStmts] at helements
    exact (convertStmt_image hss.1 hguarded.1 ha helements.append.1).append
      (convertStmts_image hss.2 hguarded.2 hb helements.append.2) (fun _ _ => .refl _)
      fun T t ts h h' => ⟨a, b, t, ts, h, h', rfl, rfl⟩

/-- What the conversion makes of a block is its image. -/
theorem convertBlock_image : ∀ {k : Nat} {b : Block} {c : Contents} {st : Int},
    ReadyBlock (OfMachine owner) b → GuardedBlock b → MatchesBlock owner plan.owners k b c →
    Elements element k (elementsBlock b) →
    Images plan st c (ownBlock b) (convertBlock plan b) landingsBlock
      fun T b' => ImageBlock plan T element st b c b'
  | _, .absent, _, _, hb, _, _, _ => hb.elim
  | k, .mk _ _ ss, c, st, hb, hguarded, hmatches, helements =>
    (@convertStmts_image k ss c st hb.2 hguarded hmatches helements).map (fun _ => .refl _)
      fun _ ts h => ⟨ts, h, rfl⟩

theorem convertCatches_image : ∀ {k : Nat} {cs : List Catch} {c : Contents} {st : Int},
    ReadyCatches (OfMachine owner) cs → GuardedCatches cs →
    MatchesCatches owner plan.owners k cs c → Elements element k (elementsCatches cs) →
    Images plan st c (ownCatches cs) (convertCatches plan cs) landingsCatches
      fun T ds => ImageCatches plan T element st cs c ds
  | _, [], _, st, _, _, rfl, _ =>
    Images.still [] (.refl _) (fun l hl => (nomatch hl)) fun T _ => ⟨rfl, rfl⟩
  | _, .mk o l body :: rest, _, st, hcs, hguarded, ⟨a, b, ha, hb, rfl⟩, helements => by
    rw [elementsCatches] at helements
    exact (convertBlock_image hcs.1 hguarded.1 ha helements.append.1).append
      (convertCatches_image hcs.2 hguarded.2 hb helements.append.2) (fun _ _ => .refl _)
      fun T body' ds h h' => ⟨a, b, body', ds, h, h', rfl, rfl⟩

end

/-! ## Properties of images -/

variable {T : Table} {markers again : Bool}

theorem settledAll_proxies (p : Option Provenance) (f : Frame) (routes : List Route)
    (after : Label) : SettledAll markers again (proxies p f routes after) := by
  have hroutes : SettledAll markers again (routes.flatMap fun r =>
      [Made.label p r.proxy, callCleanup p f, .goto (.made p) r.next]) := by
    induction routes with
    | nil => trivial
    | cons r rest ih =>
      rw [List.flatMap_cons, settledAll_append]
      exact ⟨⟨trivial, trivial, trivial, trivial⟩, ih⟩
  rw [proxies, List.cons_append, SettledAll, settledAll_append]
  exact ⟨trivial, hroutes, trivial, trivial⟩

theorem settledAll_statements {b : Block} (h : SettledBlock markers again b) :
    SettledAll markers again b.statements := by
  cases b with
  | absent => exact h.elim
  | mk => exact h.2

mutual

theorem image_settled : ∀ {s : Stmt} {frame : Int} {c : Contents} {t : Stmt},
    Image plan T element frame s c t → Settled markers again s → Settled markers again t
  | .block b, _, _, _, ⟨_, h, rfl⟩, hs => imageBlock_settled (b := b) h hs
  | .list _ ss, frame, c, _, ⟨ts, h, rfl⟩, hs => @imageAll_settled ss frame c ts h hs
  | .yieldReturn .., _, _, _, ⟨_, _, _, _, rfl⟩, _ =>
    ⟨trivial, trivial, trivial, trivial, trivial, trivial⟩
  | .yieldBreak _, _, _, _, ⟨_, _, _, rfl⟩, _ | .goto .., _, _, _, ⟨_, _, _, rfl⟩, _
  | .conditionalGoto .., _, _, _, ⟨_, _, _, rfl⟩, _ | .label .., _, _, _, ⟨_, _, rfl⟩, _
  | .sequencePoint .., _, _, _, ⟨_, rfl⟩, _ | .expression .., _, _, _, ⟨_, rfl⟩, _ => trivial
  | .throw .., _, _, _, ⟨_, rfl⟩, hs => hs
  | .try _ body catches cleanup, _, _, _, h, ⟨hbody, hcatches, hcleanup, hform⟩ => by
    rw [Image] at h
    split at h
    · obtain ⟨f, start, b', ways, -, -, -, himage, hways, rfl⟩ := h
      have hinner := settledAll_statements (imageBlock_settled himage hbody)
      have hbehind : SettledAll markers again ways := by
        rcases hways with rfl | ⟨routes, after, rfl, -⟩
        · trivial
        · exact settledAll_proxies _ f routes after
      exact ⟨trivial, trivial, ⟨rfl, trivial, trivial, hinner⟩, trivial, hbehind⟩
    · obtain ⟨-, body', catches', cleanup', hbody', hcatches', hcleanup', rfl⟩ := h
      refine ⟨imageBlock_settled hbody' hbody, imageCatches_settled hcatches' hcatches, ?_, ?_⟩
      · rcases hcleanup' with ⟨-, rfl⟩ | hcleanup'
        · exact .inl rfl
        · rcases hcleanup with rfl | hcleanup
          · exact hcleanup'.elim
          · exact .inr (imageBlock_settled hcleanup' hcleanup)
      · rcases hform with rfl | rfl
        · exact .inl hcatches'.2
        · rcases hcleanup' with ⟨-, rfl⟩ | hcleanup'
          · exact .inr rfl
          · exact hcleanup'.elim
  | .absent, _, _, _, h, _ | .noOp .., _, _, _, h, _ | .localDeclaration .., _, _, _, h, _
  | .return .., _, _, _, h, _ | .if .., _, _, _, h, _ | .while .., _, _, _, h, _
  | .break .., _, _, _, h, _ | .continue .., _, _, _, h, _ | .dispatch .., _, _, _, h, _
  | .foreign .., _, _, _, h, _ => h.elim
termination_by structural s => s

theorem imageAll_settled : ∀ {ss : List Stmt} {frame : Int} {c : Contents} {ts : List Stmt},
    ImageAll plan T element frame ss c ts → SettledAll markers again ss →
    SettledAll markers again ts
  | [], _, _, _, ⟨_, rfl⟩, _ => trivial
  | _ :: _, _, _, _, ⟨_, _, _, _, h, h', _, rfl⟩, hss =>
    ⟨image_settled h hss.1, imageAll_settled h' hss.2⟩
termination_by structural ss => ss

/-- The image of a lowered block is lowered. -/
theorem imageBlock_settled : ∀ {b : Block} {frame : Int} {c : Contents} {b' : Block},
    ImageBlock plan T element frame b c b' → SettledBlock markers again b →
    SettledBlock markers again b'
  | .absent, _, _, _, h, _ => h.elim
  | .mk _ _ ss, frame, c, _, ⟨ts, h, rfl⟩, hb => ⟨hb.1, @imageAll_settled ss frame c ts h hb.2⟩
termination_by structural b => b

theorem imageCatches_settled : ∀ {cs : List Catch} {frame : Int} {c : Contents}
    {ds : List Catch}, ImageCatches plan T element frame cs c ds → SettledCatches markers again cs →
    SettledCatches markers again ds
  | [], _, _, _, ⟨_, rfl⟩, _ => trivial
  | .mk .. :: _, _, _, _, ⟨_, _, _, _, h, h', _, rfl⟩, hcs =>
    ⟨imageBlock_settled h hcs.1, imageCatches_settled h' hcs.2⟩
termination_by structural cs => cs

end

/-- The call of the finally of a frame, as an expression. -/
def cleanupCall (p : Option Provenance) (f : Frame) : Expr :=
  .call (.made p) (Made.this p ((f.cleanup.symbol.owner).getD default)) f.cleanup.symbol []

/-- The property holds of the expressions that the conversion brings in, apart from calls of
finallys. -/
structure Brings (plan : Plan) (P : Expr → Prop) : Prop where
  read : P plan.stateRef
  bool : ∀ p b, P (Made.bool p b)
  set : ∀ p state, P (.assignment (.made p) (Made.field p plan.state) (Made.int p state))
  store : ∀ p e, P e → P (.assignment (.made p) (Made.field p plan.current) e)

section Formed

variable {P : Expr → Prop}

theorem formedAll_ways {frame : Int} {p : Option Provenance} {f : Frame} {ways : List Stmt}
    (hcall : ∀ p, P (cleanupCall p f)) (h : Ways T frame p f ways) : FormedAll P ways := by
  rcases h with rfl | ⟨routes, after, rfl, -⟩
  · trivial
  · have hroutes : FormedAll P (routes.flatMap fun r =>
        [Made.label p r.proxy, callCleanup p f, .goto (.made p) r.next]) := by
      induction routes with
      | nil => trivial
      | cons r rest ih =>
        rw [List.flatMap_cons, formedAll_append]
        exact ⟨⟨trivial, hcall p, trivial, trivial⟩, ih⟩
    rw [proxies, List.cons_append, FormedAll, formedAll_append]
    exact ⟨trivial, hroutes, trivial, trivial⟩

mutual

theorem image_formed (hbrings : Brings plan P) : ∀ {s : Stmt} {frame : Int} {c : Contents}
    {t : Stmt},
    Image plan T element frame s c t → Ready P s →
    (∀ f ∈ Frame.preorderAll c.children, ∀ p, P (cleanupCall p f)) → Formed P t
  | .block b, _, _, _, ⟨_, h, rfl⟩, hs, hcall => imageBlock_formed hbrings (b := b) h hs hcall
  | .list _ ss, frame, c, _, ⟨ts, h, rfl⟩, hs, hcall =>
    @imageAll_formed hbrings ss frame c ts h hs hcall
  | .yieldReturn .., _, _, _, ⟨_, _, _, _, rfl⟩, hs, _ =>
    ⟨hbrings.store _ _ hs, hbrings.set _ _, .inr (hbrings.bool _ _), trivial, hbrings.set _ _,
      trivial⟩
  | .yieldBreak _, _, _, _, ⟨_, _, _, rfl⟩, _, _ | .goto .., _, _, _, ⟨_, _, _, rfl⟩, _, _
  | .label .., _, _, _, ⟨_, _, rfl⟩, _, _ | .sequencePoint .., _, _, _, ⟨_, rfl⟩, _, _ => trivial
  | .conditionalGoto .., _, _, _, ⟨_, _, _, rfl⟩, hs, _ => hs
  | .expression .., _, _, _, ⟨_, rfl⟩, hs, _ | .throw .., _, _, _, ⟨_, rfl⟩, hs, _ => hs
  | .try _ body catches cleanup, _, _, _, h, ⟨hbody, hcatches, hcleanup, hform⟩, hcall => by
    rw [Image] at h
    split at h
    · obtain ⟨f, start, b', ways, rfl, -, -, himage, hways, rfl⟩ := h
      rw [Frame.preorderAll, Frame.preorderAll, List.append_nil] at hcall
      have hself : ∀ p, P (cleanupCall p f) := hcall f (Frame.mem_preorder_self f)
      have hinner : FormedAll P b'.statements := by
        have hb' := imageBlock_formed hbrings himage hbody fun g hg => hcall g ?_
        · cases b' with
          | absent => exact hb'.elim
          | mk => exact hb'.2
        · rw [Frame.preorder_eq]
          exact List.mem_cons_of_mem _ hg
      exact ⟨hbrings.set _ _, trivial, ⟨.inl rfl, hbrings.read, trivial, hinner⟩, hself _,
        formedAll_ways hself hways⟩
    · obtain ⟨rfl, body', catches', cleanup', hbody', hcatches', hcleanup', rfl⟩ := h
      have hnone : ∀ f ∈ Frame.preorderAll ({} : Contents).children, ∀ p, P (cleanupCall p f) :=
        fun f hf => nomatch hf
      refine ⟨imageBlock_formed hbrings hbody' hbody hnone,
        imageCatches_formed hbrings hcatches' hcatches hnone, ?_, ?_⟩
      · rcases hcleanup' with ⟨-, rfl⟩ | hcleanup'
        · exact .inl rfl
        · rcases hcleanup with rfl | hcleanup
          · exact hcleanup'.elim
          · exact .inr (imageBlock_formed hbrings hcleanup' hcleanup hnone)
      · by_cases hcatch : catches = []
        · right
          rcases hcleanup' with ⟨rfl, -⟩ | hcleanup'
          · exact absurd rfl (hform.mp hcatch)
          · rintro rfl
            cases cleanup with
            | absent => exact hcleanup'
            | mk =>
              obtain ⟨_, _, h⟩ := hcleanup'
              cases h
        · left
          rintro rfl
          cases catches with
          | nil => exact hcatch rfl
          | cons first rest =>
            obtain ⟨o, l, body⟩ := first
            obtain ⟨_, _, _, _, _, _, _, h⟩ := hcatches'
            cases h
  | .absent, _, _, _, h, _, _ | .noOp .., _, _, _, h, _, _ | .localDeclaration .., _, _, _, h, _, _
  | .return .., _, _, _, h, _, _ | .if .., _, _, _, h, _, _ | .while .., _, _, _, h, _, _
  | .break .., _, _, _, h, _, _ | .continue .., _, _, _, h, _, _ | .dispatch .., _, _, _, h, _, _
  | .foreign .., _, _, _, h, _, _ => h.elim
termination_by structural s => s

theorem imageAll_formed (hbrings : Brings plan P) : ∀ {ss : List Stmt} {frame : Int}
    {c : Contents} {ts : List Stmt},
    ImageAll plan T element frame ss c ts → ReadyAll P ss →
    (∀ f ∈ Frame.preorderAll c.children, ∀ p, P (cleanupCall p f)) → FormedAll P ts
  | [], _, _, _, ⟨_, rfl⟩, _, _ => trivial
  | _ :: _, _, _, _, ⟨_, _, _, _, h, h', rfl, rfl⟩, hss, hcall => by
    rw [Contents.append, Frame.preorderAll_append] at hcall
    exact ⟨image_formed hbrings h hss.1 fun f hf => hcall f (List.mem_append_left _ hf),
      imageAll_formed hbrings h' hss.2 fun f hf => hcall f (List.mem_append_right _ hf)⟩
termination_by structural ss => ss

/-- A property of the user's expressions and of those that the conversion brings in holds of all
expressions of the image. -/
theorem imageBlock_formed (hbrings : Brings plan P) : ∀ {b : Block} {frame : Int}
    {c : Contents} {b' : Block},
    ImageBlock plan T element frame b c b' → ReadyBlock P b →
    (∀ f ∈ Frame.preorderAll c.children, ∀ p, P (cleanupCall p f)) → FormedBlock P b'
  | .absent, _, _, _, h, _, _ => h.elim
  | .mk _ _ ss, frame, c, _, ⟨ts, h, rfl⟩, hb, hcall =>
    ⟨hb.1, @imageAll_formed hbrings ss frame c ts h hb.2 hcall⟩
termination_by structural b => b

theorem imageCatches_formed (hbrings : Brings plan P) : ∀ {cs : List Catch} {frame : Int} {c : Contents}
    {ds : List Catch}, ImageCatches plan T element frame cs c ds → ReadyCatches P cs →
    (∀ f ∈ Frame.preorderAll c.children, ∀ p, P (cleanupCall p f)) → FormedCatches P ds
  | [], _, _, _, ⟨_, rfl⟩, _, _ => trivial
  | .mk .. :: _, _, _, _, ⟨_, _, _, _, h, h', rfl, rfl⟩, hcs, hcall => by
    rw [Contents.append, Frame.preorderAll_append] at hcall
    exact ⟨imageBlock_formed hbrings h hcs.1 fun f hf => hcall f (List.mem_append_left _ hf),
      imageCatches_formed hbrings h' hcs.2 fun f hf => hcall f (List.mem_append_right _ hf)⟩
termination_by structural cs => cs

end

end Formed

end Resumable.StateMachine
