import Resumable.Proofs.Session.Dispatched
import Resumable.Proofs.StateMachine.Leaving

/-!
# Finallys on the way of a jump

A jump of the user's that leaves frames goes to a label from where the finallys of these frames are
called, inner ones first, and nothing else happens before control is at the target of the jump
(`jumps_unwind`).  Each frame has one proxy for each target of such jumps.
-/

set_option autoImplicit false

namespace Resumable.StateMachine

open Resumable.Report Resumable.Symbol Resumable.Tree Resumable.Source Resumable.Lowering
open Resumable.Machine hiding Region Outcome Handler

variable {σ : Type}

/-! ## Calls in a row -/

/-- From `p`, control calls the finallys of the frames in order and then goes on at `q`.  Each call
is one instruction, and the next one is a jump that changes nothing. -/
inductive Calls (ctx : Context σ) (r : Routine) : Nat → List Frame → Nat → Prop where
  | done (p : Nat) : Calls ctx r p [] p
  | call {p next q : Nat} {o : Option Provenance} {f : Frame} {fs : List Frame}
    (hcall : r.instrs[p]? = some (.exec (cleanupCall o f)))
    (hjump : r.instrs[p + 1]? = some (.jump next))
    (hadvances : ∀ c : Config σ, c.activation.caught = [] → Advances ctx r (p + 1) c next c)
    (hrest : Calls ctx r next fs q) : Calls ctx r p (f :: fs) q

/-- The finallys of the frames, called on the instance in order, come to their ends, and make the
first world into the second. -/
inductive Invokes (call : Caller σ) (ref : Ref) : List Frame → World σ → World σ → Prop where
  | nil (w : World σ) : Invokes call ref [] w w
  | cons {f : Frame} {fs : List Frame} {w v u : World σ} {x : Value}
    (hcall : call f.cleanup.symbol (some ref) [] w = some (.ok x, v))
    (hrest : Invokes call ref fs v u) :
    Invokes call ref (f :: fs) w u

/-- A run goes on behind the calls, if they come to their ends. -/
theorem Calls.run {ctx : Context σ} {r : Routine} {p q : Nat} {fs : List Frame}
    (h : Calls ctx r p fs q)
    (hown : ∀ f ∈ fs, f.cleanup.symbol.isHost = false) {ref : Ref} {c : Config σ} {w : World σ}
    (hthis : c.activation.this = some ref) (hcaught : c.activation.caught = [])
    (hinvokes : Invokes ctx.call ref fs c.world w) (steps : Nat) :
    run ctx r (steps + 2 * fs.length) r.range p c =
      run ctx r steps r.range q { c with world := w } := by
  induction h generalizing c with
  | done =>
    cases hinvokes
    rfl
  | @call p next q o f fs hcall _ hadvances _ ih =>
    obtain ⟨hfirst, hown⟩ := List.forall_mem_cons.mp hown
    cases hinvokes with
    | @cons _ _ _ v _ x hends hrest =>
      have heval : eval ctx (cleanupCall o f) c = some (.ok x, { c with world := v }) := by
        rw [cleanupCall, eval_callThis hthis hfirst, hends]
        rfl
      have hsteps : steps + 2 * (f :: fs).length = steps + 2 * fs.length + 1 + 1 := by
        rw [List.length_cons]
        omega
      have hjump := hadvances { c with world := v } hcaught
      rw [hsteps, (exec_advances hcall heval).run, hjump.run]
      exact @ih hown { c with world := v } hthis hcaught hrest

/-! ## Where proxies stand -/

/-- The code of a proxy. -/
def proxySites (p : Option Provenance) (f : Frame) (r : Route) (around : List Part) (pc : Nat) :
    List Machine.Site :=
  [⟨pc, .stmt (Made.label p r.proxy), around⟩, ⟨pc, .stmt (callCleanup p f), around⟩,
    ⟨pc + 1, .stmt (.goto (.made p) r.next), around⟩]

/-- The proxies of the frame stand among the sites. -/
def Layer.Placed (around : List Part) (xs : List Machine.Site) (x : Layer) : Prop :=
  ∀ r ∈ x.routes, ∃ p pc, proxySites p x.frame r around pc <:+: xs

theorem Layer.Placed.mono {around : List Part} {xs ys : List Machine.Site} {x : Layer}
    (h : x.Placed around xs) (hsub : xs <:+: ys) : x.Placed around ys := by
  intro r hr
  obtain ⟨p, pc, hsites⟩ := h r hr
  exact ⟨p, pc, hsites.trans hsub⟩

theorem Behind.placed {p : Option Provenance} {x : Layer} {behind : List Stmt}
    (h : Behind p x behind) (around : List Part) (pc : Nat) :
    x.Placed around (sitesStmts around pc behind) := by
  intro r hr
  rcases h with ⟨hnone, -⟩ | ⟨after, rfl⟩
  · rw [hnone] at hr
    cases hr
  · have hcode : [Made.label p r.proxy, callCleanup p x.frame, .goto (.made p) r.next] <:+:
        x.routes.flatMap fun r =>
          [Made.label p r.proxy, callCleanup p x.frame, .goto (.made p) r.next] := by
      rw [List.flatMap_def]
      exact List.infix_of_mem_flatten (List.mem_map.mpr ⟨r, hr, rfl⟩)
    have hcode := hcode.trans (show _ <:+: proxies p x.frame x.routes after from
      ⟨[Made.goto p after], [Made.label p after], rfl⟩)
    obtain ⟨pc', hsites⟩ := sitesStmts_inside hcode around pc
    exact ⟨p, pc', hsites⟩

/-! ## Layers inside each other -/

/-- What is directly inside the layers. -/
def contentsInside (root : Contents) : List Layer → Contents
  | [] => root
  | x :: _ => ⟨x.frame.suspensions, x.frame.children⟩

/-- Each frame is directly inside the next one, and the last one outside of all others. -/
inductive Nested (root : Contents) : List Layer → Prop where
  | nil : Nested root []
  | cons {x : Layer} {outer : List Layer} (hinside : x.frame ∈ (contentsInside root outer).children)
    (houter : Nested root outer) : Nested root (x :: outer)

section Nested

variable {root : Contents} {layers front rest : List Layer}

theorem Nested.level (h : Nested root layers) :
    Level root (stateInside layers) (contentsInside root layers) := by
  induction h with
  | nil => exact .top
  | cons hinside _ ih => exact ih.inside hinside

theorem Nested.mem (h : Nested root layers) :
    ∀ x ∈ layers, x.frame ∈ Frame.preorderAll root.children := by
  induction h with
  | nil => exact List.forall_mem_nil _
  | cons hinside houter ih => exact List.forall_mem_cons.mpr ⟨houter.level.mem hinside, ih⟩

/-- The inner layers are inside what is inside the others. -/
theorem Nested.split (h : Nested root (front ++ rest)) :
    Nested (contentsInside root rest) front ∧ Nested root rest := by
  induction front with
  | nil => exact ⟨.nil, h⟩
  | cons x front ih =>
    cases h with
    | cons hinside houter =>
      obtain ⟨hfront, hrest⟩ := ih houter
      refine ⟨.cons ?_ hfront, hrest⟩
      cases front <;> exact hinside

/-- The frames that a jump to the target leaves: those up to the one that the target is in. -/
def leftBy (owners : List (Option Label × Int)) (target : Option Label) (layers : List Layer) :
    List Frame :=
  (layers.takeWhile fun x => owners.lookup target ≠ some x.frame.state).map Layer.frame

/-- As all states are different, the frames on the way to a target are those without it. -/
theorem LeadsOut.passed_eq (hroot : (stateRunning :: root.states).Nodup)
    (hnested : Nested root layers) {owners : List (Option Label × Int)} {target l : Option Label}
    {passed : List Frame} (h : LeadsOut owners target layers l passed) :
    passed = leftBy owners target layers := by
  obtain ⟨front, rest, rfl, rfl, howner⟩ := h.split
  obtain ⟨hfront, hrest⟩ := hnested.split
  have hpassed : ∀ x ∈ front, decide (owners.lookup target ≠ some x.frame.state) = true := by
    intro x hx
    have hstate : x.frame.state ∈ (contentsInside root rest).states := by
      refine List.mem_append_right _ (Frame.liveStates_of_preorderAll (hfront.mem x hx) ?_)
      simp [Frame.liveStates_eq]
    have hne : stateInside rest ≠ x.frame.state := by
      intro heq
      exact (List.nodup_cons.mp (hrest.level.nodup hroot)).1 (heq ▸ hstate)
    rw [howner]
    exact decide_eq_true fun heq => hne (Option.some.inj heq)
  have hstop : rest.takeWhile (fun x => owners.lookup target ≠ some x.frame.state) = [] := by
    cases rest with
    | nil => rfl
    | cons x outer => simp [howner, stateInside]
  rw [leftBy, List.takeWhile_append_of_pos hpassed, hstop, List.append_nil]

end Nested

/-! ## What becomes of a body, among the sites of the method -/

/-- The layers are inside each other, and their proxies stand among the sites. -/
structure Stacked (root : Contents) (around : List Part) (xs : List Machine.Site)
    (layers : List Layer) : Prop where
  nested : Nested root layers
  placed : ∀ x ∈ layers, x.Placed around xs

/-- A part with the contents `c`, directly inside the layers, goes to some of the targets, and
stands among the sites if it has any frames. -/
structure Within (root : Contents) (targets : List (Option Label)) (xs : List Machine.Site)
    (layers : List Layer) (c : Contents) (labels : List (Option Label))
    (sites : Nat → List Machine.Site) : Prop where
  inside : ∀ f ∈ c.children, f ∈ (contentsInside root layers).children
  targets : ∀ l ∈ labels, l ∈ targets
  stands : c.children = [] ∨ ∃ pc, sites pc <:+: xs

section Within

variable {root : Contents} {targets : List (Option Label)} {xs : List Machine.Site}
  {layers : List Layer} {a b : Contents} {labels labels' : List (Option Label)}

/-- A part without frames. -/
theorem Within.quiet {sites : Nat → List Machine.Site} (h : ∀ l ∈ labels, l ∈ targets) :
    Within root targets xs layers {} labels sites :=
  ⟨List.forall_mem_nil _, h, .inl rfl⟩

/-- One part after another. -/
theorem Within.split (sites sites' : Nat → List Machine.Site) (size : Nat)
    (h : Within root targets xs layers (a.append b) (labels ++ labels')
      fun pc => sites pc ++ sites' (pc + size)) :
    Within root targets xs layers a labels sites ∧
      Within root targets xs layers b labels' sites' := by
  obtain ⟨hinside, htargets, hstands⟩ := h
  refine ⟨⟨fun f hf => hinside f (List.mem_append_left _ hf),
      fun l hl => htargets l (List.mem_append_left _ hl), ?_⟩,
    ⟨fun f hf => hinside f (List.mem_append_right _ hf),
      fun l hl => htargets l (List.mem_append_right _ hl), ?_⟩⟩
  · refine hstands.imp (fun hnone => (List.append_eq_nil_iff.mp hnone).1) fun ⟨pc, hsites⟩ =>
      ⟨pc, ?_⟩
    exact (List.prefix_append _ _).isInfix.trans hsites
  · refine hstands.imp (fun hnone => (List.append_eq_nil_iff.mp hnone).2) fun ⟨pc, hsites⟩ =>
      ⟨pc + size, ?_⟩
    exact (List.suffix_append _ _).isInfix.trans hsites

end Within

section Refine

variable {plan : Plan} {jump jump' : List Layer → Option Label → Option Label → Prop}
  {layer layer' : Layer → Prop} {root : Contents} {around : List Part} {xs : List Machine.Site}
  {targets : List (Option Label)}

mutual

theorem Emits.refine (hjump : ∀ layers target l, Stacked root around xs layers → l ∈ targets →
      jump layers target l → jump' layers target l)
    (hlayer : ∀ x, x.Placed around xs → layer x → layer' x) :
    ∀ {s : Stmt} {layers : List Layer} {c : Contents} {t : Stmt},
      Emits plan jump layer layers s c t → Stacked root around xs layers →
      Within root targets xs layers c (targetsStmt t) (fun pc => sitesStmt around pc t) →
      Emits plan jump' layer' layers s c t
  | .block b, _, _, _, ⟨b', h, rfl⟩, hstacked, hwithin =>
    ⟨b', EmitsBlock.refine hjump hlayer (b := b) h hstacked hwithin, rfl⟩
  | .list _ ss, layers, c, _, ⟨ts, h, rfl⟩, hstacked, hwithin =>
    ⟨ts, @EmitsAll.refine hjump hlayer ss layers c ts h hstacked hwithin, rfl⟩
  | .yieldReturn .., _, _, _, h, _, _ => h
  | .yieldBreak _, _, _, _, ⟨rfl, l, hl, rfl⟩, hstacked, hwithin
  | .goto .., _, _, _, ⟨rfl, l, hl, rfl⟩, hstacked, hwithin
  | .conditionalGoto .., _, _, _, ⟨rfl, l, hl, rfl⟩, hstacked, hwithin =>
    ⟨rfl, l, hjump _ _ l hstacked (hwithin.targets l List.mem_cons_self) hl, rfl⟩
  | .label .., _, _, _, h, _, _ | .sequencePoint .., _, _, _, h, _, _
  | .expression .., _, _, _, h, _, _ | .throw .., _, _, _, h, _, _ => h
  | .try o body catches cleanup, layers, _, _, h, hstacked, hwithin => by
    rw [Emits] at h
    rw [Emits]
    by_cases hframed : framed body cleanup = true
    · rw [if_pos hframed] at h ⊢
      obtain ⟨f, routes, start, b', behind, rfl, hsingle, hbody, hbehind, rfl⟩ := h
      obtain ⟨hinside, htargets, hstands⟩ := hwithin
      obtain ⟨pc, hsites⟩ := hstands.resolve_left (List.cons_ne_nil _ _)
      rw [sites_region] at hsites
      have hplaced : Layer.Placed around xs ⟨f, routes⟩ :=
        ((hbehind.placed around _).mono (List.suffix_cons _ _).isInfix).mono
          (((List.suffix_append _ _).trans (List.suffix_append _ _)).isInfix.trans hsites)
      have hstacked' : Stacked root around xs (⟨f, routes⟩ :: layers) :=
        ⟨.cons (hinside f List.mem_cons_self) hstacked.nested,
          List.forall_mem_cons.mpr ⟨hplaced, hstacked.placed⟩⟩
      refine ⟨f, routes, start, b', behind, rfl, hlayer _ hplaced hsingle,
        EmitsBlock.refine hjump hlayer hbody hstacked' ⟨fun g hg => hg, fun l hl => htargets l ?_,
          .inr ⟨pc + 2, ?_⟩⟩, hbehind, rfl⟩
      · have hstatements : l ∈ targetsStmts b'.statements := by cases b' <;> exact hl
        simp [region, targetsStmt, targetsStmts, targetsBlock, hstatements]
      · exact ((List.prefix_append _ _).isInfix.trans (List.suffix_append _ _).isInfix).trans hsites
    · rw [if_neg hframed] at h ⊢
      obtain ⟨rfl, body', catches', cleanup', hbody, hcatches, hcleanup, rfl⟩ := h
      have htargets : ∀ l ∈ targetsBlock body' ++ targetsCatches catches' ++ targetsBlock cleanup',
          l ∈ targets := hwithin.targets
      simp only [List.mem_append, or_imp, forall_and] at htargets
      obtain ⟨⟨hbody', hcatches'⟩, hcleanup'⟩ := htargets
      exact ⟨rfl, body', catches', cleanup',
        EmitsBlock.refine hjump hlayer hbody hstacked (.quiet hbody'),
        EmitsCatches.refine hjump hlayer hcatches hstacked hcatches',
        hcleanup.imp id fun h => EmitsBlock.refine hjump hlayer h hstacked (.quiet hcleanup'), rfl⟩
  | .absent, _, _, _, h, _, _ | .noOp .., _, _, _, h, _, _ | .localDeclaration .., _, _, _, h, _, _
  | .return .., _, _, _, h, _, _ | .if .., _, _, _, h, _, _ | .while .., _, _, _, h, _, _
  | .break .., _, _, _, h, _, _ | .continue .., _, _, _, h, _, _ | .dispatch .., _, _, _, h, _, _
  | .foreign .., _, _, _, h, _, _ => h.elim
termination_by structural s => s

theorem EmitsAll.refine (hjump : ∀ layers target l, Stacked root around xs layers → l ∈ targets →
      jump layers target l → jump' layers target l)
    (hlayer : ∀ x, x.Placed around xs → layer x → layer' x) :
    ∀ {ss : List Stmt} {layers : List Layer} {c : Contents} {ts : List Stmt},
      EmitsAll plan jump layer layers ss c ts → Stacked root around xs layers →
      Within root targets xs layers c (targetsStmts ts) (fun pc => sitesStmts around pc ts) →
      EmitsAll plan jump' layer' layers ss c ts
  | [], _, _, _, h, _, _ => h
  | _ :: _, _, _, _, ⟨a, b, t, ts, h, h', rfl, rfl⟩, hstacked, hwithin => by
    obtain ⟨hfirst, hrest⟩ := Within.split (fun pc => sitesStmt around pc t)
      (fun pc => sitesStmts around pc ts) (sizeStmt t) hwithin
    exact ⟨a, b, t, ts, Emits.refine hjump hlayer h hstacked hfirst,
      EmitsAll.refine hjump hlayer h' hstacked hrest, rfl, rfl⟩
termination_by structural ss => ss

/-- What holds of jumps to targets of the method from inside stacked layers, and of these, holds all
over what becomes of a body in the method. -/
theorem EmitsBlock.refine (hjump : ∀ layers target l, Stacked root around xs layers → l ∈ targets →
      jump layers target l → jump' layers target l)
    (hlayer : ∀ x, x.Placed around xs → layer x → layer' x) :
    ∀ {b : Block} {layers : List Layer} {c : Contents} {b' : Block},
      EmitsBlock plan jump layer layers b c b' → Stacked root around xs layers →
      Within root targets xs layers c (targetsBlock b') (fun pc => sitesBlock around pc b') →
      EmitsBlock plan jump' layer' layers b c b'
  | .absent, _, _, _, h, _, _ => h.elim
  | .mk _ _ ss, layers, c, _, ⟨ts, h, rfl⟩, hstacked, hwithin =>
    ⟨ts, @EmitsAll.refine hjump hlayer ss layers c ts h hstacked hwithin, rfl⟩
termination_by structural b => b

theorem EmitsCatches.refine (hjump : ∀ layers target l, Stacked root around xs layers → l ∈ targets →
      jump layers target l → jump' layers target l)
    (hlayer : ∀ x, x.Placed around xs → layer x → layer' x) :
    ∀ {cs : List Catch} {layers : List Layer} {ds : List Catch},
      EmitsCatches plan jump layer layers cs {} ds → Stacked root around xs layers →
      (∀ l ∈ targetsCatches ds, l ∈ targets) → EmitsCatches plan jump' layer' layers cs {} ds
  | [], _, _, h, _, _ => h
  | .mk .. :: _, _, _, ⟨a, b, body', ds, h, h', hc, rfl⟩, hstacked, htargets => by
    obtain ⟨rfl, rfl⟩ := Contents.append_eq_empty hc
    exact ⟨{}, {}, body', ds, EmitsBlock.refine hjump hlayer h hstacked
        (.quiet fun l hl => htargets l (List.mem_append_left _ hl)),
      EmitsCatches.refine hjump hlayer h' hstacked
        fun l hl => htargets l (List.mem_append_right _ hl), rfl, rfl⟩
termination_by structural cs => cs

end

end Refine

/-! ## The method that resumes -/

section Method

variable {markers : Bool} {origin : MethodBody} {owner : TypeDecl} {sm : StateMachine} {plan : Plan}
  {c : Contents} {b : Block} {k n : Nat} {invalid start : Label} {b' : Block}

/-- From a label that the method jumps to and that leads to a target, the finallys of the frames on
the way are called. -/
theorem Built.calls (h : Built markers origin owner sm plan c b k n)
    (hbody : sm.moveNext.body = moveNextBody plan (.dispose owner) c invalid start b')
    (ctx : Context σ) {target : Option Label} {layers : List Layer} {l : Option Label}
    {passed : List Frame}
    (hleads : LeadsOut plan.owners target layers l passed)
    (hplaced : ∀ x ∈ layers, x.Placed [.guarded (wholeTry plan (.dispose owner) c invalid start b')]
      (guardedSites plan (.dispose owner) c invalid start b'))
    (hl : l ∈ targetsBlock sm.moveNext.body) :
    ∃ p q, recorded? sm.moveNext.body l = some p ∧ recorded? sm.moveNext.body target = some q ∧
      Calls ctx (routineOf sm.moveNext.symbol sm.moveNext.body) p passed q := by
  have hexecutable := h.executable sm.moveNext List.mem_cons_self
  have hmem : ∀ {x}, x ∈ guardedSites plan (.dispose owner) c invalid start b' →
      x ∈ sitesBlock [] 0 sm.moveNext.body := fun hx => by
    rw [hbody]
    exact (guardedSites_inside plan (.dispose owner) c invalid start b').mem hx
  induction hleads with
  | here =>
    obtain ⟨p, hp, -⟩ := hexecutable.recorded hl
    exact ⟨p, p, hp, hp, .done p⟩
  | @proxy f routes outer r passed hroute htarget hnext ih =>
    obtain ⟨hfirst, hplaced⟩ := List.forall_mem_cons.mp hplaced
    obtain ⟨o, pc, hsites⟩ := hfirst r hroute
    have hlabel := hmem (hsites.mem List.mem_cons_self)
    have hcall := hmem (hsites.mem (List.mem_cons_of_mem _ List.mem_cons_self))
    have hjump := hmem (hsites.mem (List.mem_of_mem_getLast? rfl))
    obtain ⟨next, q, hrecorded, htarget, hcalls⟩ := ih hplaced
      (targets_of_place (mem_placesBlock_of_site hjump) List.mem_cons_self)
    refine ⟨pc, q, hexecutable.recorded_of_site hlabel, htarget,
      .call (instr_of_site sm.moveNext.symbol hcall rfl)
        (hexecutable.jump_instr hjump hrecorded) (fun d hd => ?_) hcalls⟩
    refine hexecutable.jump_advances hjump hrecorded (fun t ht => ?_) hd
    obtain rfl := List.mem_singleton.mp ht
    exact covers_recorded (hbody ▸ hrecorded)

/-- Each proxy of the frame is for a target of its own, and is defined once in the body. -/
def Layer.Proxied (body : Block) (x : Layer) : Prop :=
  x.Single ∧ ∀ r ∈ x.routes, (labelsBlock body).count (some r.proxy) = 1

/-- A jump to `target` from inside the layers of a body with the contents `c`, in the method with
the routine `r`, goes to the label `l`, from where the finallys of the frames that it leaves are
called. -/
structure Unwinds (ctx : Context σ) (r : Routine) (body : Block)
    (owners : List (Option Label × Int)) (c : Contents) (layers : List Layer)
    (target l : Option Label) : Prop where
  nested : Nested c layers
  /-- The target is in one of the frames around the jump, or outside of every frame. -/
  around : owners.lookup target = some stateRunning ∨
    ∃ x ∈ layers, owners.lookup target = some x.frame.state
  /-- A jump that leaves no frame goes to its target. -/
  direct : owners.lookup target = some (stateInside layers) → l = target
  leads : LeadsOut owners target layers l (leftBy owners target layers)
  /-- From the label, the finallys are called in order, and control goes on at the target.  A run
  that comes to the label then comes to the target, if the finallys come to their ends. -/
  calls : ∃ p q, recorded? body l = some p ∧ recorded? body target = some q ∧
    Calls ctx r p (leftBy owners target layers) q ∧
    ∀ ref (d : Config σ) w, d.activation.this = some ref → d.activation.caught = [] →
      Invokes ctx.call ref (leftBy owners target layers) d.world w → ∀ steps,
        run ctx r (steps + 2 * (leftBy owners target layers).length) r.range p d =
          run ctx r steps r.range q { d with world := w }

/-- A label that leads to its target, in layers of the method, unwinds to it. -/
theorem Built.unwinds (h : Built markers origin owner sm plan c b k n)
    (hbody : sm.moveNext.body = moveNextBody plan (.dispose owner) c invalid start b')
    (ctx : Context σ) {layers : List Layer} {target l : Option Label}
    (hstacked : Stacked c [.guarded (wholeTry plan (.dispose owner) c invalid start b')]
      (guardedSites plan (.dispose owner) c invalid start b') layers)
    (hl : l ∈ targetsBlock sm.moveNext.body) (hleaving : Leaving plan.owners layers target l) :
    Unwinds ctx (routineOf sm.moveNext.symbol sm.moveNext.body) sm.moveNext.body plan.owners c
      layers target l := by
  obtain ⟨passed, hleads⟩ := hleaving
  obtain rfl := hleads.passed_eq h.contents_nodup hstacked.nested
  obtain ⟨front, rest, rfl, -, howner⟩ := hleads.split
  refine ⟨hstacked.nested, ?_, fun hinside => ?_, hleads, ?_⟩
  · cases rest with
    | nil => exact .inl howner
    | cons x outer => exact .inr ⟨x, List.mem_append_right _ List.mem_cons_self, howner⟩
  · have hnone : leftBy plan.owners target (front ++ rest) = [] := by
      generalize front ++ rest = layers at hinside ⊢
      cases layers with
      | nil => rfl
      | cons x outer => simp [leftBy, hinside, stateInside]
    rw [hnone] at hleads
    exact hleads.eq_target
  · obtain ⟨p, q, hp, hq, hcalls⟩ := h.calls hbody ctx hleads hstacked.placed hl
    refine ⟨p, q, hp, hq, hcalls, fun ref d w hthis hcaught hinvokes steps =>
      hcalls.run (fun f hf => ?_) hthis hcaught hinvokes steps⟩
    obtain ⟨x, hx, rfl⟩ := List.mem_map.mp hf
    obtain ⟨name, hsymbol⟩ := h.cleanup_symbol
      (hstacked.nested.mem x (List.takeWhile_subset _ hx))
    rw [hsymbol]
    rfl

/-- What becomes of the body in the method that resumes. -/
theorem Built.emits (h : Built markers origin owner sm plan c b k n) : ∃ invalid start b',
    sm.moveNext.body = moveNextBody plan (.dispose owner) c invalid start b' ∧
    ∀ ctx : Context σ, EmitsBlock plan
      (Unwinds ctx (routineOf sm.moveNext.symbol sm.moveNext.body) sm.moveNext.body plan.owners c)
      (Layer.Proxied sm.moveNext.body) [] b c b' := by
  obtain ⟨invalid, start, b', scopes', i, j, hconvert, hbody⟩ := h.converts
  refine ⟨invalid, start, b', hbody, fun ctx => ?_⟩
  obtain ⟨routes, outer, rfl, hgrown, -, -, hright⟩ :=
    convertBlock_emits h.prepared.ready h.prepared.contents {} [] [] i b' scopes' j
      ⟨List.forall_mem_nil _, trivial⟩ (by simp [Single])
      (by rw [Contents.append_nil]; exact hconvert)
  obtain rfl : outer = [] := by simpa using hgrown.states
  have hexecutable := h.executable sm.moveNext List.mem_cons_self
  have hlayer : ∀ x : Layer, x.Placed [.guarded (wholeTry plan (.dispose owner) c invalid start b')]
      (guardedSites plan (.dispose owner) c invalid start b') → x.Single →
      x.Proxied sm.moveNext.body := by
    refine fun x hplaced hsingle => ⟨hsingle, fun r hr => ?_⟩
    obtain ⟨p, pc, hsites⟩ := hplaced r hr
    have hlabel := (guardedSites_inside plan (.dispose owner) c invalid start b').mem
      (hsites.mem List.mem_cons_self)
    rw [← hbody] at hlabel
    refine List.count_eq_one_of_mem hexecutable.nodup ?_
    rw [← labelPlaces_labels]
    exact List.mem_map.mpr ⟨(some r.proxy, pc), List.mem_filterMap.mpr
      ⟨_, mem_placesBlock_of_site hlabel, rfl⟩, rfl⟩
  have htargets : ∀ l ∈ targetsBlock b', l ∈ targetsBlock sm.moveNext.body := by
    intro l hl
    rw [hbody, moveNextBody_eq]
    simp [guardedBody, Made.block, targetsBlock, targetsStmts, targetsStmt, hl]
  exact EmitsBlock.refine (fun layers target l hstacked => h.unwinds hbody ctx hstacked) hlayer
    (hright [] rfl) ⟨.nil, List.forall_mem_nil _⟩ ⟨fun f hf => hf, htargets,
      .inr ⟨4, bodySites_inside plan (.dispose owner) c invalid start b'⟩⟩

end Method

/-- Jumps run the finallys of the frames that they leave, inner ones first.  Each jump of a body
goes to a label in the method that resumes, from where the finallys of the frames between the jump
and the frame of its target are called in order, once each, with nothing in between, and control
goes on at the target; a jump inside one frame goes to its target itself.  The frame of a label is
the innermost extracted try whose body it stands in, and the label at the end stands in none.  Each
frame has one proxy for a target at most, and each proxy is defined once. -/
theorem jumps_unwind {file source : String} {program : Program}
    (hread : read file source = .ok program) {m : MethodBody} (hm : m ∈ program.methods)
    {markers : Bool} {sm : StateMachine} (hlower : lowerMethod markers m = .ok (.machine sm)) :
    ∃ w k plan b n r invalid start b', walkBlock markers m.body 0 = (.ok w, k) ∧
      Prepares (machineType m.symbol) m w k plan b (contentsOf markers m) n ∧
      flatten sm.moveNext = .ok r ∧
      sm.moveNext.body =
        moveNextBody plan (.dispose (machineType m.symbol)) (contentsOf markers m) invalid start b' ∧
      (∀ l, plan.owners.lookup l = some stateRunning ↔ l = some plan.exit ∨ l ∈ ownBlock b) ∧
      MatchesBlock (machineType m.symbol) plan.owners 0 b (contentsOf markers m) ∧
      ∀ ctx : Context σ, EmitsBlock plan
        (Unwinds ctx r sm.moveNext.body plan.owners (contentsOf markers m))
        (Layer.Proxied sm.moveNext.body) [] b (contentsOf markers m) b' := by
  obtain ⟨plan, w, b, k, n, hwalk, hprepares, hbuilt⟩ := built_of_walked hread hm hlower
  obtain ⟨invalid, start, b', hbody, hemits⟩ := hbuilt.emits (σ := σ)
  exact ⟨w, k, plan, b, n, _, invalid, start, b', hwalk, hprepares,
    (hbuilt.executable sm.moveNext List.mem_cons_self).flatten sm.moveNext.symbol, hbody,
    hbuilt.prepared.owners, hbuilt.prepared.contents, hemits⟩

/-- A method with a jump out of two extracted tries, one inside the other, and one out of the outer
try to the end. -/
def crossingSource : String :=
  "class C \x7b iterator int M() \x7b try \x7b try \x7b yield return 1; goto a; \x7d finally " ++
    "\x7b \x7d yield break; \x7d finally \x7b \x7d a: ; \x7d \x7d"

/-- Three proxies are made for these jumps.  The first jump goes to 19, where the inner finally is
called, and on to 25, where the outer one is called before control is at the label at 29.  The
second one goes to 27, and on to the end at 30. -/
theorem jumps_unwind_crossing : ∃ program m sm, ∃ plan : Plan, ∃ b r b',
    read "" crossingSource = .ok program ∧ m ∈ program.methods ∧
    lowerMethod true m = .ok (.machine sm) ∧ flatten sm.moveNext = .ok r ∧
    (Frame.preorderAll (contentsOf true m).children).map Frame.state = [-3, -4] ∧
    [.generated "proxy" 10, .generated "proxy" 9, .user "a", .generated "proxy" 12,
        .generated "exit" 1].map (fun l => recorded? sm.moveNext.body (some l)) =
      [some 19, some 25, some 29, some 27, some 30] ∧
    ∀ ctx : Context Unit, EmitsBlock plan
      (Unwinds ctx r sm.moveNext.body plan.owners (contentsOf true m))
      (Layer.Proxied sm.moveNext.body) [] b (contentsOf true m) b' := by
  have hfact : (sample true crossingSource).map (fun x =>
      ((Frame.preorderAll (contentsOf true x.1).children).map Frame.state,
        [.generated "proxy" 10, .generated "proxy" 9, .user "a", .generated "proxy" 12,
          .generated "exit" 1].map fun l => recorded? x.2.moveNext.body (some l))) =
      some ([-3, -4], [some 19, some 25, some 29, some 27, some 30]) := by
    rw [sample, show crossingSource = .ofList _ from append_ofList rfl rfl, read_ofList]
    decide +kernel
  obtain ⟨⟨m, sm⟩, hsample, hfact⟩ := Option.map_eq_some_iff.mp hfact
  obtain ⟨hframes, hplaces⟩ := Prod.mk.inj hfact
  obtain ⟨program, hread, hm, hlower⟩ := sample_eq_some hsample
  obtain ⟨w, k, plan, b, n, r, invalid, start, b', -, -, hflatten, -, -, -, hemits⟩ :=
    jumps_unwind (σ := Unit) hread hm hlower
  exact ⟨program, m, sm, plan, b, r, b', hread, hm, hlower, hflatten, hframes, hplaces, hemits⟩

end Resumable.StateMachine
