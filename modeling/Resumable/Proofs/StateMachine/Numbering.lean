import Mathlib.Data.List.Nodup
import Mathlib.Data.List.Perm.Subperm
import Resumable.Proofs.StateMachine.Analysis

/-!
# What the analysis numbers

The analysis gives each suspension point and each frame a state of its own, and each frame a method
of its own (`analyzeBlock_counted`).  The method of a frame begins with setting the state of the
frame around, so the states of the frames say how they nest (`Frame.Rooted`).
-/

set_option autoImplicit false

namespace Resumable.Symbol

/-! ## Names that are not in use -/

theorem candidate_injective (base : String) : Function.Injective fun n : Nat => s!"{base}${n}" := by
  intro a b hab
  have hrepr : a.repr = b.repr := (String.append_right_inj (base ++ "$")).mp hab
  -- The number can be read off its digits.
  have hread := congrArg (fun s => Nat.ofDigitChars 10 s.toList 0) hrepr
  simpa only [Nat.toList_repr, Nat.ofDigitChars_ten_toDigits] using hread

/-- If the search ends with a name in use, every candidate it has looked at is. -/
theorem candidates_of_firstFree_mem {names : List String} {base : String} :
    ∀ {tries n : Nat}, MemberList.firstFree names base tries n ∈ names →
      ∀ k ≤ tries, s!"{base}${n + k}" ∈ names
  | 0, n, h, k, hk => by
    obtain rfl : k = 0 := Nat.le_zero.mp hk
    exact h
  | tries + 1, n, h, k, hk => by
    unfold MemberList.firstFree at h
    dsimp only at h
    split at h
    · rename_i hused
      cases k with
      | zero => exact hused
      | succ k =>
        have hlater := candidates_of_firstFree_mem h k (Nat.le_of_succ_le_succ hk)
        rwa [Nat.add_assoc, Nat.add_comm 1 k] at hlater
    · rename_i hfree
      exact absurd h hfree

/-- A name that is made unique is not in use: there are more candidates than members. -/
theorem uniqueName_notMem (l : MemberList) (base : String) : l.uniqueName base ∉ l.names := by
  intro hused
  unfold MemberList.uniqueName at hused
  split at hused
  · have hall := candidates_of_firstFree_mem hused
    have hnodup : ((List.range (l.members.length + 1)).map fun k => s!"{base}${2 + k}").Nodup := by
      refine List.Nodup.map (fun a b hab => ?_) List.nodup_range
      have := candidate_injective base hab
      omega
    have hsubset : (List.range (l.members.length + 1)).map (fun k => s!"{base}${2 + k}") ⊆
        l.names := by
      intro name hname
      obtain ⟨k, hk, rfl⟩ := List.mem_map.mp hname
      exact hall k (Nat.le_of_lt_succ (List.mem_range.mp hk))
    have hlength := (hnodup.subperm hsubset).length_le
    simp only [MemberList.names, List.length_map, List.length_range] at hlength
    omega
  · rename_i hfree
    exact hfree hused

/-- Adding a member puts it at the end. -/
theorem add_eq {l l' : MemberList} {m : Member} (h : l.add m = .ok l') :
    l' = { l with members := l.members ++ [m] } := by
  simp only [MemberList.add, Report.Violation.check, bind, Except.bind] at h
  split at h
  · cases h
  · split at h
    · cases h
    · cases h
      rfl

end Resumable.Symbol

namespace Resumable.StateMachine

open Resumable.Report Resumable.Symbol Resumable.Tree Resumable.Lowering

/-! ## States of a tree -/

/-- The states of the suspension points and frames in a part of a body. -/
def Contents.states (c : Contents) : List Int :=
  c.suspensions.map Suspension.state ++ Frame.liveStatesAll c.children

theorem Frame.liveStatesAll_append (a b : List Frame) :
    Frame.liveStatesAll (a ++ b) = Frame.liveStatesAll a ++ Frame.liveStatesAll b := by
  induction a with
  | nil => rfl
  | cons f rest ih => simp only [List.cons_append, Frame.liveStatesAll, ih, List.append_assoc]

theorem Frame.resumeStatesAll_append (a b : List Frame) :
    Frame.resumeStatesAll (a ++ b) = Frame.resumeStatesAll a ++ Frame.resumeStatesAll b := by
  induction a with
  | nil => rfl
  | cons f rest ih => simp only [List.cons_append, Frame.resumeStatesAll, ih, List.append_assoc]

theorem Contents.states_append (a b : Contents) :
    (a.append b).states.Perm (a.states ++ b.states) := by
  refine List.perm_iff_count.mpr fun s => ?_
  simp only [Contents.states, Contents.append, List.map_append, Frame.liveStatesAll_append,
    List.count_append]
  omega

mutual

/-- The method of the frame's finally begins with setting the given state, and those of the frames
inside begin with setting the state of the frame that they are directly inside. -/
def Frame.Rooted (field : Field) (parent : Int) : Frame → Prop
  | .mk state _ cleanup _ children =>
    (∃ o rest, cleanup.body = .mk o [] (assignState o.provenance field parent :: rest)) ∧
      Frame.RootedAll field state children

/-- The frames are in the frame of the given state. -/
def Frame.RootedAll (field : Field) (parent : Int) : List Frame → Prop
  | [] => True
  | f :: rest => f.Rooted field parent ∧ Frame.RootedAll field parent rest

end

theorem Frame.rootedAll_append {field : Field} {parent : Int} {a b : List Frame} :
    Frame.RootedAll field parent (a ++ b) ↔
      Frame.RootedAll field parent a ∧ Frame.RootedAll field parent b := by
  induction a with
  | nil => simp [Frame.RootedAll]
  | cons f rest ih => simp only [List.cons_append, Frame.RootedAll, ih, and_assoc]

/-- The names of the methods of frames. -/
def cleanupNames (fs : List Frame) : List String :=
  (Frame.preorderAll fs).map fun f => f.cleanup.symbol.name

theorem cleanupNames_append (a b : List Frame) :
    cleanupNames (a ++ b) = cleanupNames a ++ cleanupNames b := by
  simp only [cleanupNames, Frame.preorderAll_append, List.map_append]

/-! ## Between two points of the analysis -/

/-- The state is that of a suspension point or a frame numbered between two points. -/
def Numbers (a b : Analysis) (s : Int) : Prop :=
  ((a.suspensionCount : Int) < s ∧ s ≤ b.suspensionCount) ∨ Between a b s

/-- The methods of frames as members of the machine. -/
def cleanupMembers (fs : List Frame) : List Member :=
  (Frame.preorderAll fs).map fun f => .method f.cleanup.symbol

theorem cleanupMembers_names (fs : List Frame) :
    (cleanupMembers fs).map Member.name = cleanupNames fs := by
  simp only [cleanupMembers, cleanupNames, List.map_map]
  rfl

/-- What is numbered in a part of a body in the frame `frame`: its states and the methods of its
frames are new and all different, and the methods have become members. -/
structure Counted (field : Field) (frame : Int) (a : Analysis) (c : Contents) (b : Analysis) :
    Prop where
  count : b.suspensionCount = a.suspensionCount + c.resumeStates.length
  frames : a.frameCount ≤ b.frameCount
  states : ∀ s ∈ c.states, Numbers a b s
  nodup : c.states.Nodup
  rooted : Frame.RootedAll field frame c.children
  members : b.members =
    { a.members with members := a.members.members ++ cleanupMembers c.children }
  fresh : ∀ name ∈ cleanupNames c.children, name ∉ a.members.names
  distinct : (cleanupNames c.children).Nodup

namespace Counted

variable {field : Field} {frame : Int} {a b d : Analysis} {c c' : Contents}

theorem names (h : Counted field frame a c b) :
    b.members.names = a.members.names ++ cleanupNames c.children := by
  rw [h.members, MemberList.names, List.map_append, cleanupMembers_names]
  rfl

/-- Nothing is numbered. -/
theorem still (hcount : b.suspensionCount = a.suspensionCount) (hframes : b.frameCount = a.frameCount)
    (hmembers : b.members = a.members) : Counted field frame a {} b where
  count := hcount
  frames := Nat.le_of_eq hframes.symm
  states _ h := nomatch h
  nodup := .nil
  rooted := trivial
  members := by rw [hmembers, cleanupMembers, Frame.preorderAll, List.map_nil, List.append_nil]
  fresh _ h := nomatch h
  distinct := .nil

theorem append (h : Counted field frame a c b) (h' : Counted field frame b c' d) :
    Counted field frame a (c.append c') d := by
  have hcount := h.count
  have hcount' := h'.count
  have hframes := h.frames
  have hframes' := h'.frames
  have hleft : ∀ s ∈ c.states, Numbers a d s := by
    intro s hs
    have := h.states s hs
    unfold Numbers Between stateOfFrame at this ⊢
    omega
  have hright : ∀ s ∈ c'.states, Numbers a d s := by
    intro s hs
    have := h'.states s hs
    unfold Numbers Between stateOfFrame at this ⊢
    omega
  refine ⟨?_, Nat.le_trans hframes hframes', fun s hs => ?_, ?_, ?_, ?_, fun name hname => ?_, ?_⟩
  · simp only [Contents.resumeStates, Contents.append, List.map_append,
      Frame.resumeStatesAll_append, List.length_append] at hcount hcount' ⊢
    omega
  · rcases List.mem_append.mp ((c.states_append c').mem_iff.mp hs) with hs | hs
    · exact hleft s hs
    · exact hright s hs
  · rw [(c.states_append c').nodup_iff]
    refine List.nodup_append.mpr ⟨h.nodup, h'.nodup, ?_⟩
    rintro s hs _ hs' rfl
    have hone := h.states s hs
    have htwo := h'.states s hs'
    unfold Numbers Between stateOfFrame at hone htwo
    omega
  · exact Frame.rootedAll_append.mpr ⟨h.rooted, h'.rooted⟩
  · simp only [h'.members, h.members, Contents.append, cleanupMembers, Frame.preorderAll_append,
      List.map_append, List.append_assoc]
  · rw [Contents.append, cleanupNames_append, List.mem_append] at hname
    rcases hname with hname | hname
    · exact h.fresh name hname
    · intro hold
      apply h'.fresh name hname
      rw [h.names]
      exact List.mem_append_left _ hold
  · rw [Contents.append, cleanupNames_append]
    refine List.nodup_append.mpr ⟨h.distinct, h'.distinct, ?_⟩
    rintro name hname _ hname' rfl
    apply h'.fresh name hname'
    rw [h.names]
    exact List.mem_append_right _ hname

/-- A suspension point. -/
theorem suspension (resume : Label) :
    Counted field frame a ⟨[⟨(a.suspensionCount + 1 : Nat), resume⟩], []⟩
      { a with suspensionCount := a.suspensionCount + 1 } where
  count := rfl
  frames := Nat.le_refl _
  states s hs := by
    obtain rfl : s = ((a.suspensionCount + 1 : Nat) : Int) := by
      simpa [Contents.states, Frame.liveStatesAll] using hs
    exact .inl ⟨by omega, Int.le_refl _⟩
  nodup := by simp [Contents.states, Frame.liveStatesAll]
  rooted := trivial
  members := by rw [cleanupMembers, Frame.preorderAll, List.map_nil, List.append_nil]
  fresh _ h := nomatch h
  distinct := .nil

/-- A frame around what is numbered behind it. -/
theorem region {entry : Label} {method : MethodBody} {members : MemberList} {o : Origin}
    {rest : List Stmt} (hmembers : members =
      { a.members with members := a.members.members ++ [.method method.symbol] })
    (hfresh : method.symbol.name ∉ a.members.names)
    (hmethod : method.body = .mk o [] (assignState o.provenance field frame :: rest))
    (h : Counted field (stateOfFrame (a.frameCount + 1))
      { a with members, frameCount := a.frameCount + 1 } c b) :
    Counted field frame a ⟨[], [.mk (stateOfFrame (a.frameCount + 1)) entry method c.suspensions
      c.children]⟩ b := by
  have hcount := h.count
  have hframes := h.frames
  simp only at hcount hframes
  have hnames : members.names = a.members.names ++ [method.symbol.name] := by
    rw [hmembers, MemberList.names, List.map_append]
    rfl
  have hinside : cleanupNames [.mk (stateOfFrame (a.frameCount + 1)) entry method c.suspensions
      c.children] = method.symbol.name :: cleanupNames c.children := by
    simp [cleanupNames, Frame.preorderAll, Frame.preorder, Frame.cleanup]
  have hstates : Contents.states ⟨[], [.mk (stateOfFrame (a.frameCount + 1)) entry method
      c.suspensions c.children]⟩ = stateOfFrame (a.frameCount + 1) :: c.states := by
    simp [Contents.states, Frame.liveStatesAll, Frame.liveStates]
  have hnew : ∀ s ∈ c.states, Numbers a b s ∧ s ≠ stateOfFrame (a.frameCount + 1) := by
    intro s hs
    have := h.states s hs
    unfold Numbers Between stateOfFrame at this ⊢
    simp only at this
    omega
  refine ⟨?_, by omega, fun s hs => ?_, ?_, ⟨⟨⟨o, rest, hmethod⟩, h.rooted⟩, trivial⟩, ?_, ?_, ?_⟩
  · simpa [Contents.resumeStates, Frame.resumeStatesAll, Frame.resumeStates] using hcount
  · rw [hstates, List.mem_cons] at hs
    rcases hs with rfl | hs
    · unfold Numbers Between stateOfFrame
      omega
    · exact (hnew s hs).1
  · rw [hstates]
    exact List.nodup_cons.mpr ⟨fun hs => (hnew _ hs).2 rfl, h.nodup⟩
  · rw [h.members, hmembers]
    simp [cleanupMembers, Frame.preorderAll, Frame.preorder, Frame.cleanup]
  · intro name hname
    rw [hinside, List.mem_cons] at hname
    rcases hname with rfl | hname
    · exact hfresh
    · intro hold
      apply h.fresh name hname
      rw [hnames]
      exact List.mem_append_left _ hold
  · rw [hinside]
    refine List.nodup_cons.mpr ⟨fun hname => ?_, h.distinct⟩
    apply h.fresh _ hname
    rw [hnames]
    exact List.mem_append_right _ (List.mem_singleton_self _)

end Counted

/-! ## The analysis -/

theorem Stateful.bind_ok {σ α β : Type} {x : StateT σ Lower α} {f : α → StateT σ Lower β}
    {s t : σ} {n m : Nat} {b : β} :
    (x >>= f) s n = (.ok (b, t), m) ↔ ∃ a s' k, x s n = (.ok (a, s'), k) ∧
      f a s' k = (.ok (b, t), m) := by
  rw [Stateful.bind_apply]
  constructor
  · intro h
    cases hx : x s n with
    | mk result k =>
      rw [hx] at h
      cases result with
      | ok p => exact ⟨p.1, p.2, k, rfl, h⟩
      | error e => cases h
  · rintro ⟨a, s', k, hx, hf⟩
    rw [hx]
    exact hf

theorem Stateful.pure_ok {σ α : Type} {a b : α} {s t : σ} {n m : Nat} :
    (pure a : StateT σ Lower α) s n = (.ok (b, t), m) ↔ b = a ∧ t = s ∧ m = n := by
  rw [Stateful.pure_apply]
  constructor
  · intro h
    cases h
    exact ⟨rfl, rfl, rfl⟩
  · rintro ⟨rfl, rfl, rfl⟩
    rfl

/-- A step of the analysis numbers what it finds. -/
def Counts (field : Field) (frame : Int) (x : Analyze Contents) : Prop :=
  ∀ a n c b m, x a n = (.ok (c, b), m) → Counted field frame a c b

theorem Counts.still {field : Field} {frame : Int} : Counts field frame (pure {}) := by
  intro a n c b m h
  obtain ⟨rfl, rfl, -⟩ := Stateful.pure_ok.mp h
  exact .still rfl rfl rfl

theorem Counts.append {field : Field} {frame : Int} {x y : Analyze Contents}
    (hx : Counts field frame x) (hy : Counts field frame y) :
    Counts field frame (do
      let c ← x
      let c' ← y
      return c.append c') := by
  intro a n c b m h
  obtain ⟨d, a', k, hone, h⟩ := Stateful.bind_ok.mp h
  obtain ⟨d', a'', k', htwo, h⟩ := Stateful.bind_ok.mp h
  obtain ⟨rfl, rfl, -⟩ := Stateful.pure_ok.mp h
  exact (hx a n d a' k hone).append (hy a' k d' b k' htwo)

/-- What extraction makes of a finally. -/
theorem extract_eq {members members' : MemberList} {field : Field} {parent : Int} {name : String}
    {o : Origin} {body cleanup : Block} {method : MethodBody}
    (h : extract members field parent name o body cleanup = .ok (method, members')) :
    method = ⟨.cleanup members.owner name, .mk cleanup.origin []
        (assignState cleanup.origin.provenance field parent :: cleanup.statements)⟩ ∧
      members' = { members with
        members := members.members ++ [.method (.cleanup members.owner name)] } := by
  simp only [extract, bind, Except.bind] at h
  split at h
  · cases h
  · split at h
    · cases h
    · split at h
      · cases h
      · split at h
        · cases h
        · rename_i hadd
          cases h
          exact ⟨rfl, add_eq hadd⟩

/-- The numbering of a frame. -/
theorem frame_eq {a b : Analysis} {field : Field} {parent : Int} {o : Origin} {body cleanup : Block}
    {n m : Nat} {state : Int} {entry : Label} {method : MethodBody}
    (h : Analyze.frame field parent o body cleanup a n = (.ok ((state, entry, method), b), m)) :
    ∃ name members, name ∉ a.members.names ∧ state = stateOfFrame (a.frameCount + 1) ∧
      method = ⟨.cleanup a.members.owner name, .mk cleanup.origin []
        (assignState cleanup.origin.provenance field parent :: cleanup.statements)⟩ ∧
      members = { a.members with
        members := a.members.members ++ [.method (.cleanup a.members.owner name)] } ∧
      b = { a with members, frameCount := a.frameCount + 1 } := by
  simp only [Analyze.frame, Stateful.bind_apply, Stateful.get_apply, Stateful.lift_apply,
    Lower.newLabel_apply] at h
  cases hextract : extract a.members field parent
      (a.members.uniqueName s!"$finally{a.frameCount + 1}") o body cleanup with
  | error e =>
    rw [hextract] at h
    cases h
  | ok p =>
    obtain ⟨method', members⟩ := p
    obtain ⟨rfl, hmembers⟩ := extract_eq hextract
    rw [hextract] at h
    cases h
    exact ⟨_, members, uniqueName_notMem a.members _, rfl, rfl, hmembers, rfl⟩

mutual

theorem analyzeStmt_counted (field : Field) : ∀ (s : Stmt) (frame : Int),
    Counts field frame (analyzeStmt field frame s)
  | .yieldReturn .., frame => by
    intro a n c b m h
    cases h
    exact .suspension _
  | .label o l, frame => by
    intro a n c b m h
    obtain ⟨u, a', k, hown, h⟩ := Stateful.bind_ok.mp h
    obtain ⟨rfl, rfl, -⟩ := Stateful.pure_ok.mp h
    simp only [Analyze.own, Stateful.bind_apply, Stateful.get_apply] at hown
    split at hown
    · cases hown
    · cases hown
      exact .still rfl rfl rfl
  | .try o body catches cleanup, frame => by
    rw [analyzeStmt]
    split
    · intro a n c b m h
      obtain ⟨⟨state, entry, method⟩, a', k, hframe, h⟩ := Stateful.bind_ok.mp h
      obtain ⟨inner, a'', k', hinner, h⟩ := Stateful.bind_ok.mp h
      obtain ⟨rfl, rfl, -⟩ := Stateful.pure_ok.mp h
      obtain ⟨name, members, hfresh, rfl, rfl, hmembers, rfl⟩ := frame_eq hframe
      exact .region hmembers hfresh rfl
        (analyzeBlock_counted field body _ _ _ _ _ _ hinner)
    · have hparts := ((analyzeBlock_counted field body frame).append
        (analyzeCatches_counted field catches frame)).append
        (analyzeBlock_counted field cleanup frame)
      simpa only [bind_assoc, pure_bind] using hparts
  | .block b, frame => analyzeBlock_counted field b frame
  | .list _ ss, frame => analyzeStmts_counted field ss frame
  | .absent, _ | .sequencePoint .., _ | .noOp .., _ | .localDeclaration .., _ | .expression .., _
  | .return .., _ | .yieldBreak .., _ | .throw .., _ | .if .., _ | .while .., _ | .break .., _
  | .continue .., _ | .goto .., _ | .conditionalGoto .., _ | .dispatch .., _ | .foreign .., _ =>
    .still

theorem analyzeStmts_counted (field : Field) : ∀ (ss : List Stmt) (frame : Int),
    Counts field frame (analyzeStmts field frame ss)
  | [], _ => .still
  | s :: rest, frame =>
    (analyzeStmt_counted field s frame).append (analyzeStmts_counted field rest frame)

/-- The analysis of a block numbers its suspension points and frames. -/
theorem analyzeBlock_counted (field : Field) : ∀ (b : Block) (frame : Int),
    Counts field frame (analyzeBlock field frame b)
  | .absent, _ => .still
  | .mk _ _ ss, frame => analyzeStmts_counted field ss frame

theorem analyzeCatches_counted (field : Field) : ∀ (cs : List Catch) (frame : Int),
    Counts field frame (analyzeCatches field frame cs)
  | [], _ => .still
  | .mk _ _ body :: rest, frame =>
    (analyzeBlock_counted field body frame).append (analyzeCatches_counted field rest frame)

end

end Resumable.StateMachine
