import Resumable.Proofs.Lowering.Markers
import Resumable.Proofs.StateMachine.Unmarked

/-!
# Lowering with markers and without

Lowering with markers makes what lowering without them makes, and the markers: where it goes through
with markers, it goes through without them, draws the same labels, and gives the same methods but for
the markers (`release_is_debug_unmarked`).
-/

set_option autoImplicit false

namespace Resumable.Lowering

open Resumable.Report Resumable.Symbol Resumable.Tree

/-! ## Steps that agree -/

/-- Where the second step goes through, the first one does, with as many labels and a result that
`f` does not tell apart. -/
def Lower.Refines {α γ : Type} (f : α → γ) (x y : Lower α) : Prop :=
  ∀ n a k, y n = (.ok a, k) → ∃ b, x n = (.ok b, k) ∧ f b = f a

namespace Lower.Refines

variable {α β γ δ : Type} {f : α → γ} {g : β → δ} {x y z : Lower α}

theorem refl (x : Lower α) : Refines f x x := fun _ a _ h => ⟨a, h, rfl⟩

theorem trans (h : Refines f x y) (h' : Refines f y z) : Refines f x z := by
  intro n a k hz
  obtain ⟨b, hy, hb⟩ := h' n a k hz
  obtain ⟨c, hx, hc⟩ := h n b k hy
  exact ⟨c, hx, hc.trans hb⟩

theorem pure {a b : α} (h : f a = f b) : Refines f (Pure.pure a) (Pure.pure b) := by
  intro n c k hx
  obtain ⟨rfl, rfl⟩ := Lower.pure_ok.mp hx
  exact ⟨a, rfl, h⟩

theorem bind {k l : α → Lower β} (h : Refines f x y)
    (hk : ∀ a b, f a = f b → Refines g (k a) (l b)) : Refines g (x >>= k) (y >>= l) := by
  intro n c m hx
  obtain ⟨b, i, hb, hc⟩ := Lower.bind_ok.mp hx
  obtain ⟨a, ha, hab⟩ := h n b i hb
  obtain ⟨d, hd, hcd⟩ := hk a b hab i c m hc
  exact ⟨d, Lower.bind_ok.mpr ⟨a, i, ha, hd⟩, hcd⟩

/-- One step before both. -/
theorem after {k l : α → Lower β} (x : Lower α) (hk : ∀ a, Refines g (k a) (l a)) :
    Refines g (x >>= k) (x >>= l) :=
  bind (f := id) (refl x) fun a b hab => by
    cases (hab : a = b)
    exact hk a

/-- Steps whose results are the same under `f`. -/
theorem of_map_eq (h : f <$> x = f <$> y) : Refines f x y := by
  intro n b k hy
  have hmap : (f <$> x) n = (.ok (f b), k) := by
    rw [h, map_eq_pure_bind]
    exact Lower.bind_ok.mpr ⟨b, k, hy, rfl⟩
  rw [map_eq_pure_bind] at hmap
  obtain ⟨a, i, ha, hpure⟩ := Lower.bind_ok.mp hmap
  obtain ⟨hab, rfl⟩ := Lower.pure_ok.mp hpure
  exact ⟨a, ha, hab.symm⟩

end Lower.Refines

/-! ## Trees -/

/-- What is left of a statement, without markers. -/
def unmarkOption (s : Option Stmt) : List Stmt := unmarkStmts s.toList

theorem unmarkStmts_single (s : Stmt) : unmarkStmts [s] = unmarkStmt s := List.append_nil _

theorem unmarkOption_some (s : Stmt) : unmarkOption (some s) = unmarkStmt s :=
  unmarkStmts_single s

theorem unmark_branch (o : Origin) (c : Expr) {s t : Option Stmt} (done : Label)
    (h : unmarkOption s = unmarkOption t) :
    unmarkOption (some (branch o c s done)) = unmarkOption (some (branch o c t done)) := by
  simp only [unmarkOption] at h
  simp only [unmarkOption_some, branch, unmarkStmt, List.cons_append, unmarkStmts,
    unmarkStmts_append, h]

theorem unmark_branches (o : Origin) (c : Expr) {s t s' t' : Option Stmt} (otherwise done : Label)
    (h : unmarkOption s = unmarkOption t) (h' : unmarkOption s' = unmarkOption t') :
    unmarkOption (some (branches o c s s' otherwise done)) =
      unmarkOption (some (branches o c t t' otherwise done)) := by
  simp only [unmarkOption] at h h'
  simp only [unmarkOption_some, branches, unmarkStmt, List.cons_append, unmarkStmts,
    unmarkStmts_append, h, h']

theorem unmark_loop (o : Origin) (c : Expr) {s t : Option Stmt} (exit again : Label)
    (h : unmarkOption s = unmarkOption t) :
    unmarkOption (some (loop o c s exit again)) = unmarkOption (some (loop o c t exit again)) := by
  simp only [unmarkOption] at h
  simp only [unmarkOption_some, loop, unmarkStmt, List.cons_append, unmarkStmts,
    unmarkStmts_append, h]

theorem unmark_splitTry (o : Origin) (body : Block) (catches : List Catch) (cleanup : Block) :
    unmarkStmt (splitTry o body catches cleanup) =
      [splitTry o (unmarkBlock body) (unmarkCatches catches) (unmarkBlock cleanup)] := by
  have hmade : (Origin.made o.provenance).asGenerated = .made o.provenance := rfl
  unfold splitTry
  rw [isEmpty_unmark, isAbsent_unmark]
  split <;> simp [unmarkStmt, unmarkBlock, unmarkStmts, unmarkCatches, Made.block, hmade]

theorem unmark_tries (o : Origin) {body body' cleanup cleanup' : Block} {catches catches' : List Catch}
    (hbody : unmarkBlock body = unmarkBlock body')
    (hcatches : unmarkCatches catches = unmarkCatches catches')
    (hcleanup : unmarkBlock cleanup = unmarkBlock cleanup') :
    unmarkOption (some (splitTry o body catches cleanup)) =
      unmarkOption (some (splitTry o body' catches' cleanup')) := by
  rw [unmarkOption_some, unmarkOption_some, unmark_splitTry, unmark_splitTry, hbody, hcatches,
    hcleanup]

theorem unmark_emptyBlock (markers : Bool) (o : Origin) :
    unmarkBlock (emptyBlock markers o) = unmarkBlock (emptyBlock false o) := by
  unfold emptyBlock
  split <;> simp [unmarkBlock, unmarkStmts, unmarkStmt, Made.sequencePoint]

theorem unmark_markBlock (p : Provenance) (ss : List Stmt) :
    unmarkStmts (markBlock p ss) = unmarkStmts ss := by
  unfold markBlock
  split <;> simp [unmarkStmts, unmarkStmts_append, unmarkStmt, Made.sequencePoint]

mutual

/-- Where lowering goes through with markers, it goes through without. -/
theorem walkStmt_release : ∀ s : Stmt,
    Lower.Refines unmarkOption (walkStmt false s) (walkStmt true s)
  | .absent | .foreign .. | .sequencePoint .. | .yieldBreak .. | .break .. | .continue ..
  | .label .. | .goto .. => by
    simp only [walkStmt]
    exact .refl _
  | .noOp o => by
    simp only [walkStmt]
    refine .pure ?_
    simp only [unmarkOption_some, unmarkStmt, unmark_emptyBlock true o]
  | .block b => by
    simp only [walkStmt]
    refine (walkBlock_release b).bind fun b' b'' h => .pure ?_
    simp only [unmarkOption_some, unmarkStmt, h]
  | .list o ss => by
    simp only [walkStmt]
    refine (walkStmts_release ss).bind fun ss' ss'' h => .pure ?_
    simp only [unmarkOption_some, unmarkStmt, h]
  | .localDeclaration o l init => by
    cases init <;> simp only [walkStmt] <;> exact .refl _
  | .expression .. | .return .. | .yieldReturn .. | .throw .. | .conditionalGoto ..
  | .dispatch .. => by
    simp only [walkStmt]
    exact .refl _
  | .try o body catches .absent => by
    simp only [walkStmt]
    exact (walkBlock_release body).bind fun body' body'' h => (walkCatches_release catches).bind
      fun catches' catches'' h' => .pure (unmark_tries o h h' rfl)
  | .try o body catches (.mk p locals ss) => by
    simp only [walkStmt]
    exact (walkBlock_release body).bind fun body' body'' h => (walkCatches_release catches).bind
      fun catches' catches'' h' => (walkBlock_release (.mk p locals ss)).bind
        fun cleanup' cleanup'' h'' => .pure (unmark_tries o h h' h'')
  | .if o c t f => by
    by_cases hf : f = .absent
    · subst hf
      simp only [walkStmt]
      refine .after _ fun c => (walkStmt_release t).bind fun t' t'' h => .after _ fun done =>
        .pure (unmark_branch o c done h)
    · rw [walkStmt, walkStmt]
      · refine .after _ fun c => (walkStmt_release t).bind fun t' t'' h => .after _ fun done =>
          .after _ fun otherwise => (walkStmt_release f).bind fun f' f'' h' =>
            .pure (unmark_branches o c otherwise done h h')
      · exact hf
      · exact hf
  | .while o c body (some exit) (some again) => by
    simp only [walkStmt]
    exact .after _ fun c => (walkStmt_release body).bind fun body' body'' h =>
      .pure (unmark_loop o c exit again h)
  | .while o c body none again => by
    simp only [walkStmt]
    exact .refl _
  | .while o c body (some exit) none => by
    simp only [walkStmt]
    exact .refl _

theorem walkStmts_release : ∀ ss : List Stmt,
    Lower.Refines unmarkStmts (walkStmts false ss) (walkStmts true ss)
  | [] => .refl _
  | s :: rest => by
    simp only [walkStmts]
    refine (walkStmt_release s).bind fun s' s'' h => (walkStmts_release rest).bind
      fun rest' rest'' h' => .pure ?_
    simp only [unmarkOption] at h
    simp only [unmarkStmts_append, h, h']

theorem walkBlock_release : ∀ b : Block,
    Lower.Refines unmarkBlock (walkBlock false b) (walkBlock true b)
  | .absent => .refl _
  | .mk o locals ss => by
    have hfalse : walkBlock false (.mk o locals ss) = (do
        let ss ← walkStmts false ss
        return .mk o locals ss) := by simp [walkBlock]
    rw [hfalse, walkBlock]
    split
    · refine (walkStmts_release ss).bind fun ss' ss'' h => .pure ?_
      simp only [unmarkBlock, h]
    · split
      · split
        · refine (walkStmts_release ss).bind fun ss' ss'' h => .pure ?_
          simp only [unmarkBlock, unmark_markBlock, h]
          rfl
        · exact fun n a k h => (Lower.fail_ok.mp h).elim
      · exact fun n a k h => (Lower.fail_ok.mp h).elim

theorem walkCatches_release : ∀ cs : List Catch,
    Lower.Refines unmarkCatches (walkCatches false cs) (walkCatches true cs)
  | [] => .refl _
  | .mk o l body :: rest => by
    simp only [walkCatches]
    refine (walkBlock_release body).bind fun b' b'' h => (walkCatches_release rest).bind
      fun rest' rest'' h' => .pure ?_
    simp only [unmarkCatches, h, h']

end

/-! ## Markers that are left -/

mutual

theorem markers_unmarkStmt {allowYield : Bool} : ∀ {s : Stmt}, verifiedStmt allowYield s = true →
    ∀ d, (Stmt.visitsAll (fun _ => true) d (unmarkStmt s)).flatMap markerAt = []
  | .block b, hs, d => by
    rw [unmarkStmt, visitsAll_single]
    exact markersIn_unmark (b := b) hs d
  | .list _ ss, hs, d => by
    rw [unmarkStmt, visitsAll_single, Stmt.visits, enter_all]
    exact markers_unmarkStmts (s := ss) hs (d + 1)
  | .try _ body catches cleanup, hs, d => by
    simp only [verifiedStmt, Bool.and_eq_true] at hs
    obtain ⟨-, ⟨hbody, hcatches⟩, hcleanup⟩ := hs
    simp [unmarkStmt, visitsAll_single, Stmt.visits, enter_all, markerAt, markersIn_unmark hbody,
      markers_unmarkCatches hcatches, markersIn_unmark hcleanup]
  | .sequencePoint .., _, _ => rfl
  | .expression _ e, _, d | .return _ e, _, d | .yieldReturn _ e, _, d | .throw _ e, _, d
  | .conditionalGoto _ e _ _, _, d | .dispatch _ e _ _, _, d => by
    simp [unmarkStmt, visitsAll_single, Stmt.visits, enter_all, markerAt, expr_markers]
  | .absent, _, _ | .yieldBreak _, _, _ | .label .., _, _ | .goto .., _, _ => by
    simp [unmarkStmt, visitsAll_single, Stmt.visits, enter_all, markerAt]
  | .noOp .., hs, _ | .localDeclaration .., hs, _ | .if .., hs, _ | .while .., hs, _
  | .break .., hs, _ | .continue .., hs, _ | .foreign .., hs, _ => nomatch hs

theorem markers_unmarkStmts {allowYield : Bool} : ∀ {s : List Stmt},
    verifiedStmts allowYield s = true →
    ∀ d, (Stmt.visitsAll (fun _ => true) d (unmarkStmts s)).flatMap markerAt = []
  | [], _, _ => rfl
  | s :: rest, hss, d => by
    rw [verifiedStmts, Bool.and_eq_true] at hss
    rw [unmarkStmts, visitsAll_append, List.flatMap_append, markers_unmarkStmt hss.1,
      markers_unmarkStmts hss.2, List.append_nil]

/-- No marker is left in a block of the lowered form. -/
theorem markersIn_unmark {allowYield : Bool} : ∀ {b : Block}, verifiedBlock allowYield b = true →
    ∀ d, ((unmarkBlock b).visits (fun _ => true) d).flatMap markerAt = []
  | .absent, _, _ => rfl
  | .mk _ _ ss, hb, d => by
    rw [unmarkBlock, Block.visits, enter_all]
    exact markers_unmarkStmts (s := ss) hb (d + 1)

theorem markers_unmarkCatches {allowYield : Bool} : ∀ {cs : List Catch},
    verifiedCatches allowYield cs = true →
    ∀ d, (Catch.visitsAll (fun _ => true) d (unmarkCatches cs)).flatMap markerAt = []
  | [], _, _ => rfl
  | .mk _ _ body :: rest, hcs, d => by
    rw [verifiedCatches, Bool.and_eq_true] at hcs
    rw [unmarkCatches, Catch.visitsAll, List.flatMap_append, markersIn_unmark hcs.1,
      markers_unmarkCatches hcs.2, List.append_nil]

end

/-! ## Bodies that are lowered again -/

theorem walkStmts_append (markers : Bool) (ss ts : List Stmt) :
    walkStmts markers (ss ++ ts) = (do
      let ss ← walkStmts markers ss
      let ts ← walkStmts markers ts
      return ss ++ ts) := by
  induction ss with
  | nil => simp [walkStmts]
  | cons s rest ih => simp [walkStmts, ih, -bind_pure_comp]

theorem walkStmts_single (markers : Bool) (s : Stmt) :
    walkStmts markers [s] = Option.toList <$> walkStmt markers s := by
  simp [walkStmts]

/-- Steps with the same results under `f` and `f'`, before steps with the same results under `g` and
`g'`. -/
theorem map_bind_congr {α α' β β' γ δ : Type} {f : α → γ} {f' : α' → γ} {g : β → δ} {g' : β' → δ}
    {x : Lower α} {y : Lower α'} {k : α → Lower β} {l : α' → Lower β'} (h : f <$> x = f' <$> y)
    (hk : ∀ a b, f a = f' b → g <$> k a = g' <$> l b) : g <$> (x >>= k) = g' <$> (y >>= l) := by
  funext n
  have hn := congrFun h n
  simp only [map_eq_pure_bind, Lower.bind_apply, Lower.pure_apply] at hn ⊢
  cases hx : x n with
  | mk r i =>
    cases hy : y n with
    | mk r' j =>
      cases r <;> cases r' <;> simp only [hx, hy] at hn ⊢
      case error.error => cases hn; rfl
      case error.ok => cases hn
      case ok.error => cases hn
      case ok.ok a b =>
        injection hn with hab hij
        injection hab with hab
        subst hij
        have hgk := congrFun (hk a b hab) i
        simpa only [map_eq_pure_bind, Lower.bind_apply, Lower.pure_apply] using hgk

mutual

/-- Without markers, lowering makes of a body without markers what it makes of the body. -/
theorem walkStmt_unmark : ∀ s : Stmt,
    unmarkStmts <$> walkStmts false (unmarkStmt s) = unmarkOption <$> walkStmt false s
  | .sequencePoint .. => rfl
  | .block b => by
    simp only [unmarkStmt, walkStmts_single, walkStmt, Functor.map_map]
    exact map_bind_congr (walkBlock_unmark b) fun b b' h => by
      simp only [map_pure, unmarkOption_some, Option.toList, unmarkStmts_single, unmarkStmt, h]
  | .list o ss => by
    simp only [unmarkStmt, walkStmts_single, walkStmt, Functor.map_map]
    exact map_bind_congr (walkStmts_unmark ss) fun ss ss' h => by
      simp only [map_pure, unmarkOption_some, Option.toList, unmarkStmts_single, unmarkStmt, h]
  | .try o body catches .absent => by
    simp only [unmarkStmt, unmarkBlock, walkStmts_single, walkStmt, Functor.map_map]
    exact map_bind_congr (walkBlock_unmark body) fun body body' h =>
      map_bind_congr (walkCatches_unmark catches) fun catches catches' h' =>
        congrArg (pure (f := Lower)) (unmark_tries o h h' rfl)
  | .try o body catches (.mk p locals ss) => by
    have hcleanup := walkBlock_unmark (.mk p locals ss)
    simp only [unmarkBlock] at hcleanup
    simp only [unmarkStmt, unmarkBlock, walkStmts_single, walkStmt, Functor.map_map]
    exact map_bind_congr (walkBlock_unmark body) fun body body' h =>
      map_bind_congr (walkCatches_unmark catches) fun catches catches' h' =>
        map_bind_congr hcleanup fun cleanup cleanup' h'' =>
          congrArg (pure (f := Lower)) (unmark_tries o h h' h'')
  | .absent | .noOp .. | .localDeclaration .. | .expression .. | .return .. | .yieldReturn ..
  | .yieldBreak .. | .throw .. | .if .. | .while .. | .break .. | .continue .. | .label ..
  | .goto .. | .conditionalGoto .. | .dispatch .. | .foreign .. => by
    simp only [unmarkStmt, walkStmts_single, Functor.map_map]
    rfl

theorem walkStmts_unmark : ∀ ss : List Stmt,
    unmarkStmts <$> walkStmts false (unmarkStmts ss) = unmarkStmts <$> walkStmts false ss
  | [] => rfl
  | s :: rest => by
    rw [unmarkStmts, walkStmts_append, walkStmts]
    exact map_bind_congr (walkStmt_unmark s) fun ss s' h =>
      map_bind_congr (walkStmts_unmark rest) fun rest rest' h' => by
        simp only [unmarkOption] at h
        simp only [map_pure, unmarkStmts_append, h, h']

theorem walkBlock_unmark : ∀ b : Block,
    unmarkBlock <$> walkBlock false (unmarkBlock b) = unmarkBlock <$> walkBlock false b
  | .absent => rfl
  | .mk o locals ss => by
    simp only [unmarkBlock, walkBlock, Bool.not_false, Bool.or_true, if_true]
    exact map_bind_congr (walkStmts_unmark ss) fun ss ss' h => by
      simp only [map_pure, unmarkBlock, h]
      rfl

theorem walkCatches_unmark : ∀ cs : List Catch,
    unmarkCatches <$> walkCatches false (unmarkCatches cs) = unmarkCatches <$> walkCatches false cs
  | [] => rfl
  | .mk o l body :: rest => by
    simp only [unmarkCatches, walkCatches]
    exact map_bind_congr (walkBlock_unmark body) fun body body' h =>
      map_bind_congr (walkCatches_unmark rest) fun rest rest' h' => by
        simp only [map_pure, unmarkCatches, h, h']

end

/-- Bodies that differ in markers only, the first lowered without markers and the second with. -/
theorem walkBlock_refines {b b' : Block} (h : unmarkBlock b = unmarkBlock b') :
    Lower.Refines unmarkBlock (walkBlock false b) (walkBlock true b') := by
  have hmap : unmarkBlock <$> walkBlock false b = unmarkBlock <$> walkBlock false b' := by
    rw [← walkBlock_unmark b, h, walkBlock_unmark b']
  exact (Lower.Refines.of_map_eq hmap).trans (walkBlock_release b')

end Resumable.Lowering

/-! ## State machines -/

namespace Resumable.StateMachine

open Resumable.Report Resumable.Symbol Resumable.Tree Resumable.Lowering

/-- A machine whose methods have no markers. -/
def unmark (m : StateMachine) : StateMachine :=
  { m with
    moveNext := m.moveNext.unmark
    dispose := m.dispose.unmark
    cleanups := m.cleanups.map MethodBody.unmark }

theorem hoist_refines {b b' : Block} (h : unmarkBlock b = unmarkBlock b') (hoisted : Hoisted) :
    Lower.Refines (fun p => (unmarkBlock p.1, p.2)) (Lower.ofExcept ((hoistBlock b).run hoisted))
      (Lower.ofExcept ((hoistBlock b').run hoisted)) := by
  have hrun : ∀ c : Block, (fun p => (unmarkBlock p.1, p.2)) <$> (hoistBlock c).run hoisted =
      (hoistBlock (unmarkBlock c)).run hoisted := by
    intro c
    rw [hoistBlock_unmark, StateT.run_map]
  refine .of_map_eq ?_
  rw [← ofExcept_map, ← ofExcept_map, hrun, hrun, h]

theorem analyze_refines {b b' : Block} (h : unmarkBlock b = unmarkBlock b') (field : Field)
    (frame : Int) (analysis : Analysis) :
    Lower.Refines (fun p => (p.1.unmark, p.2)) ((analyzeBlock field frame b).run analysis)
      ((analyzeBlock field frame b').run analysis) := by
  have hrun : ∀ c : Block, (fun p => (Contents.unmark p.1, p.2)) <$>
      (analyzeBlock field frame c).run analysis =
        (analyzeBlock field frame (unmarkBlock c)).run analysis := by
    intro c
    rw [analyzeBlock_unmark, StateT.run_map]
  refine .of_map_eq ?_
  rw [hrun, hrun, h]

theorem buildMoveNext_refines (plan : Plan) (dispose : Method) {c c' : Contents} {b b' : Block}
    (hc : c.unmark = c'.unmark) (h : unmarkBlock b = unmarkBlock b') :
    Lower.Refines unmarkBlock (buildMoveNext plan dispose c b) (buildMoveNext plan dispose c' b') := by
  refine .of_map_eq ?_
  rw [← buildMoveNext_unmark, ← buildMoveNext_unmark, hc, h]

/-- The methods of the finallys, lowered with markers and without. -/
theorem walkCleanups_refines : ∀ fs fs' : List Frame, fs.map Frame.unmark = fs'.map Frame.unmark →
    Lower.Refines (List.map MethodBody.unmark)
      (fs.mapM fun f => do
        let body ← walkBlock false f.cleanup.body
        return { symbol := f.cleanup.symbol, body : MethodBody })
      (fs'.mapM fun f => do
        let body ← walkBlock true f.cleanup.body
        return { symbol := f.cleanup.symbol, body : MethodBody })
  | [], [], _ => .refl _
  | [], _ :: _, h => by cases h
  | _ :: _, [], h => by cases h
  | f :: rest, f' :: rest', h => by
    rw [List.map_cons, List.map_cons, List.cons.injEq, f.unmark_eq, f'.unmark_eq] at h
    obtain ⟨hf, hrest⟩ := h
    injection hf with _ _ hcleanup
    obtain ⟨hsymbol, hbody⟩ := MethodBody.mk.inj hcleanup
    simp only [List.mapM_cons, bind_assoc, pure_bind]
    refine (walkBlock_refines hbody).bind fun b b' hb =>
      (walkCleanups_refines rest rest' hrest).bind fun ms ms' hms => .pure ?_
    simp only [List.map_cons, MethodBody.unmark, hb, hsymbol, hms]

/-- Machines of bodies that differ in markers only. -/
theorem build_refines (owner : TypeDecl) (m : MethodBody) {b b' : Block}
    (h : unmarkBlock b = unmarkBlock b') :
    Lower.Refines unmark (build false owner m b) (build true owner m b') := by
  have hcheck : checkRepresentable m.symbol b = checkRepresentable m.symbol b' := by
    rw [← checkRepresentable_unmark, h, checkRepresentable_unmark]
  simp only [build, hcheck]
  refine .after _ fun _ => .after _ fun exit => .after _ fun declared => .after _ fun _ =>
    (hoist_refines h declared).bind ?_
  rintro ⟨body, hoisted⟩ ⟨body', hoisted'⟩ hbody
  obtain ⟨hbody, rfl⟩ := Prod.mk.inj hbody
  refine (analyze_refines hbody _ _ _).bind ?_
  rintro ⟨c, analysis⟩ ⟨c', analysis'⟩ hc
  obtain ⟨hc, rfl⟩ := Prod.mk.inj hc
  refine (buildMoveNext_refines _ _ hc hbody).bind fun moveNext moveNext' hmoveNext =>
    (walkBlock_refines hmoveNext).bind fun moveNext moveNext' hmoveNext => ?_
  have hframes : Frame.unmarkAll c.children = Frame.unmarkAll c'.children :=
    congrArg Contents.children hc
  have hpreorder : (Frame.preorderAll c.children).map Frame.unmark =
      (Frame.preorderAll c'.children).map Frame.unmark := by
    rw [← Frame.preorderAll_unmark, hframes, Frame.preorderAll_unmark]
  have hdispose : ∀ plan, disposeBody plan c.children = disposeBody plan c'.children := by
    intro plan
    rw [disposeBody, ← disposeFrames_unmark, hframes, disposeFrames_unmark, disposeBody]
  rw [hdispose]
  refine (walkBlock_release _).bind fun dispose dispose' hdisposed =>
    (walkCleanups_refines _ _ hpreorder).bind fun cleanups cleanups' hcleanups => .pure ?_
  simp only [unmark, MethodBody.unmark, hmoveNext, hdisposed, hcleanups]

end Resumable.StateMachine

/-! ## Methods -/

namespace Resumable.Lowering

open Resumable.Report Resumable.Symbol Resumable.Tree Resumable.Source Resumable.StateMachine

/-- What lowering has made, without markers: the members and symbols stay what they are. -/
def Lowered.unmark : Lowered → Lowered
  | .plain m => .plain m.unmark
  | .machine m => .machine m.unmark

theorem bodies_unmark (l : Lowered) : l.unmark.bodies = l.bodies.map MethodBody.unmark := by
  cases l <;> rfl

theorem lowerBody_refines (m : MethodBody) :
    Lower.Refines Lowered.unmark (lowerBody false m) (lowerBody true m) := by
  unfold lowerBody
  refine (walkBlock_release m.body).bind fun b b' h => ?_
  have hverify : ∀ allowYield, verify allowYield (.stmt (.block b)) =
      verify allowYield (.stmt (.block b')) := by
    intro allowYield
    rw [← verify_unmark, h, verify_unmark]
  rw [hverify]
  refine .after _ fun _ => ?_
  split
  · exact (StateMachine.build_refines _ m h).bind fun sm sm' hsm =>
      .pure (congrArg (fun sm : StateMachine => Lowered.machine sm.freeze) hsm)
  · refine .pure ?_
    simp only [Lowered.unmark, MethodBody.unmark, h]

theorem checkMade_unmark (m : MethodBody) : checkMade m.unmark = checkMade m := by
  simp only [checkMade, MethodBody.unmark, verify_unmark]

theorem forM_checkMade_unmark (ms : List MethodBody) :
    (ms.map MethodBody.unmark).forM checkMade = ms.forM checkMade := by
  simp only [List.forM_eq_forM, List.forM_map, checkMade_unmark]

/-- The bodies that lowering checks once they are made. -/
def Lowered.checked : Lowered → List MethodBody
  | .plain _ => []
  | .machine sm => sm.methods

theorem checked_unmark (l : Lowered) : l.unmark.checked = l.checked.map MethodBody.unmark := by
  cases l <;> rfl

theorem lowerMethod_eq (markers : Bool) (m : MethodBody) :
    lowerMethod markers m = match (lowerBody markers m 0).1 with
      | .error violation => .error { violation }
      | .ok l => do
        l.checked.forM checkMade
        return l := by
  have houtcome : (lowerBody markers m).outcome = lowerBody markers m 0 := rfl
  unfold lowerMethod
  rw [houtcome]
  rcases lowerBody markers m 0 with ⟨_ | l, _⟩
  · rfl
  · cases l <;> rfl

/-- What has been lowered is in the lowered form. -/
theorem verified_of_lowered {markers : Bool} {m : MethodBody} {l : Lowered}
    (hlower : lowerMethod markers m = .ok l) :
    ∀ x ∈ l.bodies, ∃ allowYield, verifiedBlock allowYield x.body = true := by
  intro x hx
  rw [lowerMethod_eq] at hlower
  rcases hbody : lowerBody markers m 0 with ⟨_ | made, k⟩
  · rw [hbody] at hlower
    cases hlower
  · simp only [hbody] at hlower
    cases hcheck : made.checked.forM checkMade with
    | error fault =>
      rw [hcheck] at hlower
      cases hlower
    | ok u =>
      rw [hcheck] at hlower
      cases hlower
      cases l with
      | plain m' =>
        obtain rfl := List.mem_singleton.mp hx
        obtain ⟨b, i, -, hbody⟩ := Lower.bind_ok.mp hbody
        obtain ⟨_, j, hverify, hbody⟩ := Lower.bind_ok.mp hbody
        obtain ⟨hverify, -⟩ := Lower.ofExcept_ok.mp hverify
        refine ⟨m.symbol.isIterator, ?_⟩
        split at hbody
        · obtain ⟨sm, n, -, hbody⟩ := Lower.bind_ok.mp hbody
          cases (Lower.pure_ok.mp hbody).1
        · cases (Lower.pure_ok.mp hbody).1
          exact (verify_block_iff.mp hverify).1
      | machine sm =>
        have hmade := (StateMachine.checkMade_iff x).mp (Machine.forM_ok_iff.mp hcheck x hx)
        exact ⟨false, (verify_block_iff.mp hmade).1⟩

/-- Where a method can be lowered with markers it can be lowered without them, and once all the
markers are taken out both results are the same. -/
theorem release_is_debug_unmarked {m : MethodBody} {debug : Lowered}
    (hdebug : lowerMethod true m = .ok debug) :
    ∃ release, lowerMethod false m = .ok release ∧ release.unmark = debug.unmark ∧
      ∀ x ∈ debug.unmark.bodies, markersIn x.body = [] := by
  have hnone : ∀ x ∈ debug.unmark.bodies, markersIn x.body = [] := by
    intro x hx
    rw [bodies_unmark] at hx
    obtain ⟨y, hy, rfl⟩ := List.mem_map.mp hx
    obtain ⟨allowYield, hverified⟩ := verified_of_lowered hdebug y hy
    exact markersIn_unmark hverified 0
  rw [lowerMethod_eq] at hdebug
  rcases hbody : lowerBody true m 0 with ⟨_ | made, k⟩
  · rw [hbody] at hdebug
    cases hdebug
  · rw [hbody] at hdebug
    obtain ⟨release, hrelease, hsame⟩ := lowerBody_refines m 0 made k hbody
    have hcheck : release.checked.forM checkMade = made.checked.forM checkMade := by
      rw [← forM_checkMade_unmark, ← checked_unmark, hsame, checked_unmark, forM_checkMade_unmark]
    rw [lowerMethod_eq, hrelease]
    cases hforM : made.checked.forM checkMade with
    | error fault =>
      simp only [hforM] at hdebug
      cases hdebug
    | ok u =>
      simp only [hforM] at hdebug
      cases hdebug
      exact ⟨release, by simp only [hcheck, hforM]; rfl, hsame, hnone⟩

theorem release_is_debug_unmarked_nested : ∃ program m sm release,
    read "" markedSource = .ok program ∧ m ∈ program.methods ∧
    lowerMethod true m = .ok (.machine sm) ∧
    (sm.methods.map fun x => (markersIn x.body).length) = [6, 0, 4] ∧
    lowerMethod false m = .ok release ∧ release.unmark = (Lowered.machine sm).unmark ∧
    ∀ x ∈ (Lowered.machine sm).unmark.bodies, markersIn x.body = [] := by
  have hfact : ((sample true markedSource).map fun (_, sm) =>
      sm.methods.map fun x => (markersIn x.body).length) = some [6, 0, 4] := by
    rw [sample, show markedSource = .ofList _ from append_ofList (append_ofList rfl rfl) rfl,
      read_ofList]
    decide +kernel
  obtain ⟨⟨m, sm⟩, hsample, hcounts⟩ := Option.map_eq_some_iff.mp hfact
  obtain ⟨program, hread, hm, hlower⟩ := sample_eq_some hsample
  obtain ⟨release, hrelease, hsame, hnone⟩ := release_is_debug_unmarked hlower
  exact ⟨program, m, sm, release, hread, hm, hlower, hcounts, hrelease, hsame, hnone⟩

end Resumable.Lowering
