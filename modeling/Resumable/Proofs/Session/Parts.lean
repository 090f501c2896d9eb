import Resumable.Proofs.Session.Isolation
import Resumable.Proofs.StateMachine.Numbering
import Resumable.Proofs.Lowering.Methods

/-!
# The parts of a state machine

What the machine of a resumable method is made of: the suspension points and frames of its body
(`contentsOf`), the methods that are built from them (`Built`), and the routines of these methods
where they are loaded (`Carries`).
-/

set_option autoImplicit false

namespace Resumable.StateMachine

open Resumable.Report Resumable.Symbol Resumable.Tree Resumable.Source Resumable.Lowering
open Resumable.Machine (Executable routineOf flatten)

/-! ## Suspension points and frames -/

/-- The type of the machine of a method. -/
def machineType (m : Method) : TypeDecl := .stateMachine m.name m.locations

/-- Find the suspension points and frames of the machine of a method. -/
def findContents (markers : Bool) (m : MethodBody) : Lower Contents := do
  let body ← walkBlock markers m.body
  let exit ← Lower.newLabel "exit"
  let hoisted ← Lower.ofExcept (declareMembers (machineType m.symbol) m.symbol)
  let (body, hoisted) ← Lower.ofExcept ((hoistBlock body).run hoisted)
  let analysis : Analysis := { members := hoisted.members, owners := [(some exit, stateRunning)] }
  let (contents, _) ←
    (analyzeBlock (stateField (machineType m.symbol)) stateRunning body).run analysis
  return contents

/-- The suspension points and frames of the machine of a method. -/
def contentsOf (markers : Bool) (m : MethodBody) : Contents :=
  match (findContents markers m).outcome.1 with
  | .ok c => c
  | .error _ => {}

/-- The outermost frames of the machine of a method. -/
def framesOf (markers : Bool) (m : MethodBody) : List Frame := (contentsOf markers m).children

theorem contentsOf_eq {markers : Bool} {m : MethodBody} {b b' : Block} {k n : Nat} {plan : Plan}
    {c : Contents} (hwalk : walkBlock markers m.body 0 = (.ok b, k))
    (hprepares : Prepares (machineType m.symbol) m b k plan b' c n) :
    contentsOf markers m = c := by
  obtain ⟨h, h', a, hdeclare, hhoist, hanalyze, -⟩ := hprepares
  have hfind : (findContents markers m).outcome = (.ok c, n) := by
    show findContents markers m 0 = (.ok c, n)
    simp only [findContents, Lower.bind_apply, hwalk, Lower.newLabel_apply, ofExcept_apply,
      hdeclare, StateT.run, hhoist, hanalyze, Lower.pure_apply]
  rw [contentsOf, hfind]

/-- The first resumable method of a program that is lowered, with its machine. -/
def sample (markers : Bool) (source : String) : Option (MethodBody × StateMachine) :=
  (read "" source).toOption.bind fun program => program.methods.findSome? fun m =>
    match lowerMethod markers m with
    | .ok (.machine sm) => some (m, sm)
    | _ => none

theorem sample_eq_some {markers : Bool} {source : String} {m : MethodBody} {sm : StateMachine}
    (h : sample markers source = some (m, sm)) : ∃ program, read "" source = .ok program ∧
      m ∈ program.methods ∧ lowerMethod markers m = .ok (.machine sm) := by
  unfold sample at h
  obtain ⟨program, hprogram, hfound⟩ := Option.bind_eq_some_iff.mp h
  obtain ⟨m', hm', hsome⟩ := List.exists_of_findSome?_eq_some hfound
  refine ⟨program, read_of_toOption hprogram, ?_⟩
  cases hlower : lowerMethod markers m' with
  | error e =>
    rw [hlower] at hsome
    cases hsome
  | ok l =>
    rw [hlower] at hsome
    cases l with
    | plain x => cases hsome
    | machine sm' =>
      cases hsome
      exact ⟨hm', hlower⟩

/-! ## Methods -/

/-- The machine is built of the hoisted body `b` of a method with the contents; `k` labels were made
before the one at the end of the body, and `n` before the conversion. -/
structure Built (markers : Bool) (origin : MethodBody) (owner : TypeDecl) (sm : StateMachine)
    (plan : Plan) (c : Contents) (b : Block) (k n : Nat) : Prop where
  prepared : Prepared owner plan c b k n
  user : ReadyBlock (OfUser owner) b
  settled : ∀ again, again = true ∨ rethrowsBlock origin.body = false → SettledBlock markers again b
  leads : (∀ r ∈ regionsBlock [] origin.body, r.Unentered) → LeadsBlock (· ∈ openBlock b) b
  planned : plan.state = stateField owner
  distinct : plan.current ≠ plan.state
  state : sm.state = plan.state
  current : sm.current = plan.current
  counted : ∃ a a', a.suspensionCount = 0 ∧ a.frameCount = 0 ∧
    Counted (stateField owner) stateRunning a c a'
  extracted : ∀ f ∈ Frame.preorderAll c.children, ∃ cleanup ∈ cleanupsBlock b,
    Extracted owner (stateField owner) cleanup f
  moveNext : ∃ body n', buildMoveNext plan (.dispose owner) c b n = (.ok body, n') ∧
    WalkedBlock markers body sm.moveNext.body
  moveNextSymbol : sm.moveNext.symbol = .moveNext owner
  dispose : WalkedBlock markers (disposeBody plan c.children) sm.dispose.body
  disposeSymbol : sm.dispose.symbol = .dispose owner
  cleanups : List.Forall₂ (fun f x => x.symbol = f.cleanup.symbol ∧
    WalkedBlock markers f.cleanup.body x.body) (Frame.preorderAll c.children) sm.cleanups
  verified : ∀ x ∈ sm.methods, verify false (.stmt (.block x.body)) = .ok ()

/-- The methods of finallys are lowered in the order of their frames. -/
theorem walkCleanups_forall₂ {markers : Bool} : ∀ {fs : List Frame} {ms : List MethodBody}
    {n m : Nat},
    (fs.mapM fun f => do
        let body ← walkBlock markers f.cleanup.body
        return { symbol := f.cleanup.symbol, body : MethodBody } : Lower (List MethodBody)) n =
      (.ok ms, m) →
    List.Forall₂ (fun f x => x.symbol = f.cleanup.symbol ∧
      WalkedBlock markers f.cleanup.body x.body) fs ms
  | [], ms, n, m, h => by
    obtain ⟨rfl, -⟩ := Lower.pure_ok.mp h
    exact .nil
  | f :: rest, ms, n, m, h => by
    rw [List.mapM_cons] at h
    obtain ⟨y, k, hy, h⟩ := Lower.bind_ok.mp h
    obtain ⟨ys, k', hys, h⟩ := Lower.bind_ok.mp h
    obtain ⟨rfl, -⟩ := Lower.pure_ok.mp h
    obtain ⟨b, i, hwalk, hy⟩ := Lower.bind_ok.mp hy
    obtain ⟨rfl, -⟩ := Lower.pure_ok.mp hy
    exact .cons ⟨rfl, walkedBlock_of_ok hwalk⟩ (walkCleanups_forall₂ hys)

/-- The machine of a resumable method is built of its suspension points and frames, from the hoisted
body `b` that was made of the lowered body `w`. -/
theorem built_of_walked {file source : String} {program : Program}
    (hread : read file source = .ok program) {m : MethodBody} (hm : m ∈ program.methods)
    {markers : Bool} {sm : StateMachine} (hlower : lowerMethod markers m = .ok (.machine sm)) :
    ∃ plan w b k n, walkBlock markers m.body 0 = (.ok w, k) ∧
      Prepares (machineType m.symbol) m w k plan b (contentsOf markers m) n ∧
      Built markers m (machineType m.symbol) sm plan (contentsOf markers m) b k n := by
  have hbound := bound_methods hread hm
  obtain ⟨b, k, hwalk, hlaid, hverify⟩ := walkBody_ok hbound markers
  obtain ⟨hnodup, hearlier, -⟩ := walkBody_labels hbound hlaid hverify
  obtain ⟨n, hblock⟩ := hbound.bound
  have hready := readyBlock_walked hblock (walkedBlock_of_ok hwalk)
  cases hiterator : m.symbol.isIterator with
  | false =>
    rw [lowerMethod_of_walk hiterator hwalk] at hlower
    split at hlower <;> cases hlower
  | true =>
    rw [lowerMethod_of_build hiterator hwalk hverify] at hlower
    cases hrepresentable : checkRepresentable m.symbol b with
    | error e =>
      rw [build_error hiterator hbound.ordinals hrepresentable] at hlower
      cases hlower
    | ok u =>
      obtain ⟨plan, h, members, c, b', i, hbuild, hprepares, hprepared, huser, hsame, hextracted, -⟩ :=
        build_eq_assemble hiterator hbound.ordinals hready hnodup hearlier hrepresentable markers
          (machineType m.symbol)
      obtain ⟨-, h', a, -, -, hanalyze, hplan⟩ := id hprepares
      have hcounted := analyzeBlock_counted _ _ _ _ _ _ _ _ hanalyze
      rw [show TypeDecl.stateMachine m.symbol.name m.symbol.locations = machineType m.symbol
        from rfl, hbuild] at hlower
      cases hassemble : assemble markers plan (machineType m.symbol) h members c b' i with
      | mk result j =>
        rw [hassemble] at hlower
        cases result with
        | error e => cases hlower
        | ok machine =>
          dsimp only at hlower
          cases hcheck : machine.methods.forM checkMade with
          | error fault =>
            rw [hcheck] at hlower
            cases hlower
          | ok u =>
            rw [hcheck] at hlower
            cases hlower
            have hverified : ∀ x ∈ machine.methods, verify false (.stmt (.block x.body)) = .ok () :=
              fun x hx => (checkMade_iff x).mp (Machine.forM_ok_iff.mp hcheck x hx)
            obtain ⟨moveNext, n₁, hmove, hrest⟩ := Lower.bind_ok.mp hassemble
            obtain ⟨b₂, n₂, hwalk₂, hrest⟩ := Lower.bind_ok.mp hrest
            obtain ⟨b₃, n₃, hwalk₃, hrest⟩ := Lower.bind_ok.mp hrest
            obtain ⟨ms, n₄, hcleanups, hrest⟩ := Lower.bind_ok.mp hrest
            obtain ⟨rfl, -⟩ := Lower.pure_ok.mp hrest
            rw [contentsOf_eq hwalk hprepares]
            have hsettled : ∀ again, again = true ∨ rethrowsBlock m.body = false →
                SettledBlock markers again b' := fun again h =>
              (hsame.settled markers again).mpr (walkedBlock_settled h (walkedBlock_of_ok hwalk))
            have hleads : (∀ r ∈ regionsBlock [] m.body, r.Unentered) →
                LeadsBlock (· ∈ openBlock b') b' := fun hunentered => by
              rw [hsame.leads, hsame.opened]
              exact leads_walked hbound hunentered (walkedBlock_of_ok hwalk)
            have hdistinct : plan.current ≠ plan.state := by
              rw [hplan]
              exact fun h => absurd (congrArg Field.name h) (by simp [currentField, stateField])
            exact ⟨plan, b, b', k, i, hwalk, hprepares, hprepared, huser, hsettled, hleads,
              by rw [hplan], hdistinct, rfl, rfl,
              ⟨_, a, rfl, rfl, hcounted⟩, hextracted,
              ⟨moveNext, n₁, hmove, walkedBlock_of_ok hwalk₂⟩, rfl, walkedBlock_of_ok hwalk₃, rfl,
              walkCleanups_forall₂ hcleanups, hverified⟩

theorem built_of_lowered {file source : String} {program : Program}
    (hread : read file source = .ok program) {m : MethodBody} (hm : m ∈ program.methods)
    {markers : Bool} {sm : StateMachine} (hlower : lowerMethod markers m = .ok (.machine sm)) :
    ∃ plan b k n, Built markers m (machineType m.symbol) sm plan (contentsOf markers m) b k n := by
  obtain ⟨plan, -, b, k, n, -, -, hbuilt⟩ := built_of_walked hread hm hlower
  exact ⟨plan, b, k, n, hbuilt⟩

namespace Built

variable {markers : Bool} {origin : MethodBody} {owner : TypeDecl} {sm : StateMachine} {plan : Plan}
  {c : Contents} {b : Block} {k n : Nat}

/-- Each method of a finally is made of its frame. -/
theorem frame_of_cleanup (h : Built markers origin owner sm plan c b k n) {x : MethodBody}
    (hx : x ∈ sm.cleanups) : ∃ f ∈ Frame.preorderAll c.children,
      x.symbol = f.cleanup.symbol ∧ WalkedBlock markers f.cleanup.body x.body := by
  obtain ⟨i, hlt, rfl⟩ := List.getElem_of_mem hx
  have hlt' : i < (Frame.preorderAll c.children).length := by rwa [h.cleanups.length_eq]
  exact ⟨_, List.getElem_mem hlt', (List.forall₂_iff_get.mp h.cleanups).2 i hlt' hlt⟩

/-- Every method of the machine has been lowered. -/
theorem walked (h : Built markers origin owner sm plan c b k n) :
    ∀ x ∈ sm.methods, ∃ before, WalkedBlock markers before x.body := by
  intro x hx
  rcases List.mem_cons.mp hx with rfl | hx
  · obtain ⟨body, -, -, hwalked⟩ := h.moveNext
    exact ⟨body, hwalked⟩
  · rcases List.mem_cons.mp hx with rfl | hx
    · exact ⟨_, h.dispose⟩
    · obtain ⟨f, -, -, hwalked⟩ := h.frame_of_cleanup hx
      exact ⟨_, hwalked⟩

/-- Every method of the machine can be executed. -/
theorem executable (h : Built markers origin owner sm plan c b k n) :
    ∀ x ∈ sm.methods, Executable x.body := by
  intro x hx
  obtain ⟨before, hwalked⟩ := h.walked x hx
  exact executable_of_walked hwalked (h.verified x hx)

/-- Each frame has its method among those of the machine. -/
theorem cleanup_mem (h : Built markers origin owner sm plan c b k n) {f : Frame}
    (hf : f ∈ Frame.preorderAll c.children) :
    ∃ x ∈ sm.methods, x.symbol = f.cleanup.symbol ∧ WalkedBlock markers f.cleanup.body x.body := by
  obtain ⟨i, hlt, rfl⟩ := List.getElem_of_mem hf
  have hlt' : i < sm.cleanups.length := by rwa [← h.cleanups.length_eq]
  have hpair := (List.forall₂_iff_get.mp h.cleanups).2 i hlt hlt'
  refine ⟨_, ?_, hpair⟩
  exact List.mem_cons_of_mem _ (List.mem_cons_of_mem _ (List.getElem_mem hlt'))

/-- The method of a frame is one of a finally. -/
theorem cleanup_symbol (h : Built markers origin owner sm plan c b k n) {f : Frame}
    (hf : f ∈ Frame.preorderAll c.children) : ∃ name, f.cleanup.symbol = .cleanup owner name := by
  obtain ⟨cleanup, -, name, parent, hmethod⟩ := h.extracted f hf
  exact ⟨name, by rw [hmethod]⟩

/-- The methods of finallys have the symbols that their frames have. -/
theorem cleanup_symbols (h : Built markers origin owner sm plan c b k n) :
    sm.cleanups.map MethodBody.symbol =
      (Frame.preorderAll c.children).map fun f => f.cleanup.symbol := by
  have hall := h.cleanups
  revert hall
  generalize Frame.preorderAll c.children = fs
  generalize sm.cleanups = xs
  intro hall
  induction hall with
  | nil => rfl
  | cons hpair _ ih => rw [List.map_cons, List.map_cons, hpair.1, ih]

/-- No two methods of the machine have one symbol. -/
theorem symbols_nodup (h : Built markers origin owner sm plan c b k n) :
    (sm.methods.map MethodBody.symbol).Nodup := by
  obtain ⟨a, a', -, -, hcounted⟩ := h.counted
  have hdistinct : ((Frame.preorderAll c.children).map fun f => f.cleanup.symbol).Nodup := by
    refine List.Nodup.of_map Method.name ?_
    rw [List.map_map]
    exact hcounted.distinct
  have hrole : ∀ s ∈ (Frame.preorderAll c.children).map (fun f => f.cleanup.symbol),
      s.role = .cleanup := by
    intro s hs
    obtain ⟨f, hf, rfl⟩ := List.mem_map.mp hs
    obtain ⟨name, hname⟩ := h.cleanup_symbol hf
    rw [hname]
    rfl
  rw [StateMachine.methods, List.map_cons, List.map_cons, h.cleanup_symbols, h.moveNextSymbol,
    h.disposeSymbol]
  refine List.nodup_cons.mpr ⟨fun hmem => ?_, List.nodup_cons.mpr ⟨fun hmem => ?_, hdistinct⟩⟩
  · rcases List.mem_cons.mp hmem with heq | hmem
    · cases congrArg Method.role heq
    · cases hrole _ hmem
  · cases hrole _ hmem

end Built

end Resumable.StateMachine

namespace Resumable.Machine

open Resumable.Symbol Resumable.Tree Resumable.StateMachine

variable {σ : Type}

/-! ## Routines -/

/-- The methods of the machine are loaded. -/
def Carries (sm : StateMachine) (m : Machine σ) : Prop :=
  ∀ x ∈ sm.methods, m.routines.lookup x.symbol = some (flatten x)

theorem lookup_entries_of_nodup : ∀ {bodies : List MethodBody},
    (bodies.map MethodBody.symbol).Nodup → ∀ {x : MethodBody}, x ∈ bodies →
      (entries bodies).lookup x.symbol = some (flatten x)
  | [], _, _, hx => nomatch hx
  | first :: rest, hnodup, x, hx => by
    rw [List.map_cons, List.nodup_cons] at hnodup
    have hentries : entries (first :: rest) = entries rest ++ [(first.symbol, flatten first)] := by
      simp [entries]
    rw [hentries, List.lookup_append]
    rcases List.mem_cons.mp hx with rfl | hx
    · have hnone : (entries rest).lookup x.symbol = none := by
        cases hlookup : (entries rest).lookup x.symbol with
        | none => rfl
        | some loaded =>
          obtain ⟨y, hy, hsymbol, -⟩ := lookup_entries hlookup
          exact absurd (List.mem_map.mpr ⟨y, hy, hsymbol⟩) hnodup.1
      simp [hnone]
    · rw [lookup_entries_of_nodup hnodup.2 hx]
      rfl

/-- Loading the methods of a machine makes them loaded. -/
theorem carries_load {markers : Bool} {origin : MethodBody} {owner : TypeDecl} {sm : StateMachine}
    {plan : Plan} {c : Contents} {b : Block} {k n : Nat} (h : Built markers origin owner sm plan c b k n)
    (m : Machine σ) : Carries sm (m.load sm.methods) := by
  intro x hx
  rw [load_routines, List.lookup_append, lookup_entries_of_nodup h.symbols_nodup hx]
  rfl

/-- What is found for a method whose body can be executed is the routine of the body. -/
theorem routine_of_lookup {m : Machine σ} {x : MethodBody}
    (h : m.routines.lookup x.symbol = some (flatten x)) (hexecutable : Executable x.body) :
    m.routine x.symbol = .ok (routineOf x.symbol x.body) := by
  unfold Machine.routine
  rw [h, hexecutable.flatten x.symbol]

theorem Carries.routine {sm : StateMachine} {m : Machine σ} (h : Carries sm m) {x : MethodBody}
    (hx : x ∈ sm.methods) (hexecutable : Executable x.body) :
    m.routine x.symbol = .ok (routineOf x.symbol x.body) :=
  routine_of_lookup (h x hx) hexecutable

end Resumable.Machine
