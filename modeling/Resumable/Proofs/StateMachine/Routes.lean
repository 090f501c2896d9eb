import Resumable.Proofs.StateMachine.Analysis

/-!
# Ways of jumps

A jump out of frames is made if the frame of its label is around it (`Sees`).  It then goes to the
label itself or to a proxy in the innermost frame (`Reaches`), and each proxy goes on to a label that
the frame around can reach (`Linked`).  Proxies wait to be placed until their frame is left.
-/

set_option autoImplicit false

namespace Resumable.StateMachine

open Resumable.Report Resumable.Symbol Resumable.Tree Resumable.Source Resumable.Lowering

/-! ## Jumps that can be made -/

mutual

/-- The jumps of the statement that are not in finallys of frames go to labels that are visible
where they stand. -/
def Routed (visible : Option Label → Prop) : Stmt → Prop
  | .block b => RoutedBlock visible b
  | .list _ ss => RoutedAll visible ss
  | .goto _ l | .conditionalGoto _ _ _ l | .break _ l | .continue _ l => visible l
  | .dispatch _ _ cases l => ∀ k ∈ cases.map DispatchCase.label ++ [l], visible k
  | .if _ _ t f => Routed visible t ∧ Routed visible f
  | .while _ _ body _ _ => Routed visible body
  | .try _ body catches cleanup =>
    if framed body cleanup then RoutedBlock (fun l => visible l ∨ l ∈ ownBlock body) body
    else (RoutedBlock visible body ∧ RoutedCatches visible catches) ∧ RoutedBlock visible cleanup
  | _ => True

/-- The jumps of the statements that are not in finallys of frames go to visible labels. -/
def RoutedAll (visible : Option Label → Prop) : List Stmt → Prop
  | [] => True
  | s :: rest => Routed visible s ∧ RoutedAll visible rest

/-- The jumps of the block that are not in finallys of frames go to visible labels. -/
def RoutedBlock (visible : Option Label → Prop) : Block → Prop
  | .absent => True
  | .mk _ _ ss => RoutedAll visible ss

/-- The jumps of the handlers that are not in finallys of frames go to visible labels. -/
def RoutedCatches (visible : Option Label → Prop) : List Catch → Prop
  | [] => True
  | .mk _ _ body :: rest => RoutedBlock visible body ∧ RoutedCatches visible rest

end

mutual

theorem fits_iff_routed : ∀ (s : Stmt) (V : Option Label → Prop),
    Fits V s ↔ Routed V s ∧ ∀ b ∈ cleanupsStmt s, Closed b
  | .block b, V => fitsBlock_iff_routed b V
  | .list _ ss, V => fitsAll_iff_routed ss V
  | .if _ _ t f, V => by
    rw [Fits, Routed, cleanupsStmt, forall_mem_append, fits_iff_routed t, fits_iff_routed f]
    exact and_and_and_comm
  | .while _ _ body _ _, V => fits_iff_routed body V
  | .try _ body catches cleanup, V => by
    rw [Fits, Routed, cleanupsStmt]
    split
    · rw [fitsBlock_iff_routed body, List.forall_mem_cons, and_assoc]
      exact and_congr_right fun _ => and_comm
    · rw [fitsBlock_iff_routed body, fitsCatches_iff_routed catches, fitsBlock_iff_routed cleanup,
        forall_mem_append, forall_mem_append, and_and_and_comm (c := RoutedCatches V catches),
        and_and_and_comm (c := RoutedBlock V cleanup)]
  | .absent, V | .sequencePoint .., V | .noOp .., V | .localDeclaration .., V | .expression .., V
  | .return .., V | .yieldReturn .., V | .yieldBreak .., V | .throw .., V | .break .., V
  | .continue .., V | .label .., V | .goto .., V | .conditionalGoto .., V | .dispatch .., V
  | .foreign .., V => by
    simp [Fits, Routed, cleanupsStmt]

theorem fitsAll_iff_routed : ∀ (ss : List Stmt) (V : Option Label → Prop),
    FitsAll V ss ↔ RoutedAll V ss ∧ ∀ b ∈ cleanupsStmts ss, Closed b
  | [], V => by simp [FitsAll, RoutedAll, cleanupsStmts]
  | s :: rest, V => by
    rw [FitsAll, RoutedAll, cleanupsStmts, forall_mem_append, fits_iff_routed s,
      fitsAll_iff_routed rest]
    exact and_and_and_comm

theorem fitsBlock_iff_routed : ∀ (b : Block) (V : Option Label → Prop),
    FitsBlock V b ↔ RoutedBlock V b ∧ ∀ c ∈ cleanupsBlock b, Closed c
  | .absent, V => by simp [FitsBlock, RoutedBlock, cleanupsBlock]
  | .mk _ _ ss, V => fitsAll_iff_routed ss V

theorem fitsCatches_iff_routed : ∀ (cs : List Catch) (V : Option Label → Prop),
    FitsCatches V cs ↔ RoutedCatches V cs ∧ ∀ b ∈ cleanupsCatches cs, Closed b
  | [], V => by simp [FitsCatches, RoutedCatches, cleanupsCatches]
  | .mk _ _ body :: rest, V => by
    rw [FitsCatches, RoutedCatches, cleanupsCatches, forall_mem_append, fitsBlock_iff_routed body,
      fitsCatches_iff_routed rest]
    exact and_and_and_comm

end

/-! ## Scopes -/

/-- The proxies of a scope. -/
def Scope.proxies (s : Scope) : List (Option Label) := s.routes.map fun r => some r.proxy

/-- The proxies of scopes, which are placed when the scopes are left. -/
def pending : List Scope → List (Option Label)
  | [] => []
  | s :: outer => s.proxies ++ pending outer

/-- The frame of the label is one of those with the states. -/
def Sees (owners : List (Option Label × Int)) (states : List Int) (l : Option Label) : Prop :=
  ∃ state ∈ states, owners.lookup l = some state

/-- A jump to `target` by way of the label `l` stays in the innermost scope: the target stands
directly inside it, or the label is the proxy of the target. -/
def Reaches (owners : List (Option Label × Int)) (scopes : List Scope)
    (target l : Option Label) : Prop :=
  ∃ s, scopes.head? = some s ∧ (l = target ∧ owners.lookup l = some s.state ∨
    ∃ r ∈ s.routes, r.target = target ∧ l = some r.proxy)

/-- Each proxy goes on to a label by which the scope around reaches its target. -/
def Linked (owners : List (Option Label × Int)) : List Scope → Prop
  | [] => True
  | s :: outer => (∀ r ∈ s.routes, Reaches owners outer r.target r.next) ∧ Linked owners outer

/-- The scopes are the same except for further ways out of them. -/
def Grown : List Scope → List Scope → Prop
  | [], [] => True
  | s :: outer, t :: outer' => t.state = s.state ∧ t.contents = s.contents ∧
    (∃ more, t.routes = s.routes ++ more) ∧ Grown outer outer'
  | _, _ => False

variable {owners : List (Option Label × Int)} {scopes scopes' : List Scope}

theorem Grown.refl : ∀ scopes : List Scope, Grown scopes scopes
  | [] => trivial
  | _ :: outer => ⟨rfl, rfl, ⟨[], by simp⟩, Grown.refl outer⟩

theorem Grown.trans : ∀ {a b c : List Scope}, Grown a b → Grown b c → Grown a c
  | [], [], [], _, _ => trivial
  | _ :: _, _ :: _, _ :: _, ⟨hstate, hcontents, ⟨more, hmore⟩, houter⟩,
      ⟨hstate', hcontents', ⟨more', hmore'⟩, houter'⟩ =>
    ⟨hstate'.trans hstate, hcontents'.trans hcontents,
      ⟨more ++ more', by rw [hmore', hmore, List.append_assoc]⟩, houter.trans houter'⟩
  | [], _ :: _, _, h, _ | _ :: _, [], _, h, _ | [], [], _ :: _, _, h
  | _ :: _, _ :: _, [], _, h => h.elim

/-- The innermost scope has further ways out at most. -/
theorem Grown.exists_cons {st : Int} {c : Contents} {routes : List Route} {outer : List Scope}
    (h : Grown (⟨st, c, routes⟩ :: outer) scopes') :
    ∃ routes' outer', scopes' = ⟨st, c, routes'⟩ :: outer' ∧ (∃ more, routes' = routes ++ more) ∧
      Grown outer outer' := by
  match scopes', h with
  | ⟨_, _, routes'⟩ :: outer', ⟨rfl, rfl, hmore, houter⟩ =>
    exact ⟨routes', outer', rfl, hmore, houter⟩

theorem Grown.states : ∀ {a b : List Scope}, Grown a b → b.map Scope.state = a.map Scope.state
  | [], [], _ => rfl
  | _ :: _, _ :: _, ⟨hstate, _, _, houter⟩ => by
    rw [List.map_cons, List.map_cons, hstate, houter.states]
  | [], _ :: _, h | _ :: _, [], h => h.elim

theorem Grown.reaches : ∀ {a b : List Scope}, Grown a b → ∀ {target l : Option Label},
    Reaches owners a target l → Reaches owners b target l
  | s :: _, t :: _, ⟨hstate, _, ⟨more, hmore⟩, _⟩, _, _, ⟨s', hs, hl⟩ => by
    cases hs
    refine ⟨t, rfl, hl.imp (fun h => hstate ▸ h) fun ⟨r, hr, heq⟩ => ⟨r, ?_, heq⟩⟩
    rw [hmore]
    exact List.mem_append_left _ hr
  | [], [], _, _, _, ⟨_, hs, _⟩ => nomatch hs
  | [], _ :: _, h, _, _, _ | _ :: _, [], h, _, _, _ => h.elim

/-! ## Proxies -/

/-- What making a jump gives: a label by which the target can be reached, proxies in scopes that are
left, and nothing else. -/
structure Routing (owners : List (Option Label × Int)) (target : Option Label)
    (scopes : List Scope) (n : Nat) (l : Option Label) (scopes' : List Scope) (m : Nat) : Prop where
  grown : Grown scopes scopes'
  linked : Linked owners scopes'
  reaches : Reaches owners scopes' target l
  labels : ∃ made, (pending scopes').Perm (pending scopes ++ made) ∧ Numbered n m made

/-- A jump to a label whose frame is around is made, by way of proxies. -/
theorem proxy_ok {target : Option Label} {owner : Int} (howner : owners.lookup target = some owner) :
    ∀ {scopes : List Scope}, (∃ s ∈ scopes, s.state = owner) → Linked owners scopes → ∀ n,
      ∃ l scopes' m, proxy target owner scopes n = (.ok (l, scopes'), m) ∧
        Routing owners target scopes n l scopes' m
  | [], ⟨s, hs, _⟩, _, _ => nomatch hs
  | s :: outer, haround, hlinked, n => by
    rw [proxy]
    by_cases hhere : s.state = owner
    · refine ⟨target, s :: outer, n, by simp [hhere, Lower.pure_apply], .refl _, hlinked,
        ⟨s, rfl, .inl ⟨rfl, by rw [hhere, howner]⟩⟩, [], by simp, .nil⟩
    · simp only [hhere, if_false]
      cases hproxy : s.proxy? target with
      | some p =>
        refine ⟨some p, s :: outer, n, rfl, .refl _, hlinked, ⟨s, rfl, .inr ?_⟩, [], by simp, .nil⟩
        simp only [Scope.proxy?, Option.map_eq_some_iff] at hproxy
        obtain ⟨r, hr, rfl⟩ := hproxy
        exact ⟨r, List.mem_of_find?_eq_some hr, by simpa using List.find?_some hr, rfl⟩
      | none =>
        have haround' : ∃ t ∈ outer, t.state = owner := by
          obtain ⟨t, ht, hstate⟩ := haround
          rcases List.mem_cons.mp ht with rfl | ht
          · exact absurd hstate hhere
          · exact ⟨t, ht, hstate⟩
        obtain ⟨next, outer', m, hstep, hrouting⟩ := proxy_ok howner haround' hlinked.2 n
        obtain ⟨made, hperm, hmade⟩ := hrouting.labels
        refine ⟨some (.generated "proxy" (m + 1 : Nat)), { s with routes := s.routes ++
          [⟨target, .generated "proxy" (m + 1 : Nat), next⟩] } :: outer', m + 1, ?_, ?_⟩
        · simp only [Lower.bind_apply, hstep, Lower.newLabel_apply, Lower.pure_apply]
        · refine ⟨⟨rfl, rfl, ⟨_, rfl⟩, hrouting.grown⟩, ⟨fun r hr => ?_, hrouting.linked⟩,
            ⟨_, rfl, .inr ⟨_, List.mem_append_right _ List.mem_cons_self, rfl, rfl⟩⟩,
            made ++ [some (.generated "proxy" (m + 1 : Nat))], ?_,
            hmade.append (.single (by decide) (by decide))⟩
          · rcases List.mem_append.mp hr with hr | hr
            · exact hrouting.grown.reaches (hlinked.1 r hr)
            · rw [List.mem_singleton.mp hr]
              exact hrouting.reaches
          · refine List.perm_iff_count.mpr fun l => ?_
            have hcount := hperm.count_eq l
            simp only [pending, Scope.proxies, List.map_append, List.map_cons, List.map_nil,
              List.count_append] at hcount ⊢
            omega

end Resumable.StateMachine
