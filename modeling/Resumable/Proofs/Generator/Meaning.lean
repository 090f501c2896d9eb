import Resumable.Proofs.Generator.Generated
import Resumable.Proofs.Session.Starting

/-!
# State machines mean what generators mean

A resumable method as a generator, and an instance of its machine: whatever the arguments and the host
methods, they answer requests alike, with the same calls of host methods in between
(`machine_means_generator`).  Host methods that use up the levels of calls can tell them apart, since
the machine has its finallys in methods of their own, and so can a jump from inside of a try to a label
directly before it (`generator_told_apart`).
-/

set_option autoImplicit false

namespace Resumable.Machine

open Resumable.Symbol Resumable.Tree

variable {σ α β : Type}

/-! ## Calls that spare the objects -/

/-- The step leaves every object as it is. -/
def Act.Spares (x : Act σ α) : Prop :=
  ∀ c z d, x c = some (z, d) → d.world.objects = c.world.objects

namespace Act.Spares

theorem pure (a : α) : Spares (Pure.pure a : Act σ α) := fun c z d h => by
  cases h
  rfl

theorem throw (f : Failure) : Spares (MonadExcept.throw f : Act σ α) := fun c z d h => by
  cases h
  rfl

theorem bind {x : Act σ α} {f : α → Act σ β} (hx : Spares x) (hf : ∀ a, Spares (f a)) :
    Spares (x >>= f) := by
  intro c z d h
  rw [Act.bind_apply] at h
  split at h
  · cases h
  · rename_i a c' hc'
    exact (hf a c' z d h).trans (hx c _ c' hc')
  · rename_i e c' hc'
    cases h
    exact hx c _ d hc'

theorem attempt {x : Act σ α} (hx : Spares x) : Spares (Act.attempt x) := by
  intro c z d h
  rw [Act.attempt_apply] at h
  obtain ⟨⟨result, c'⟩, hc', heq⟩ := Option.map_eq_some_iff.mp h
  cases heq
  exact hx c _ c' hc'

/-- A host method that calls another one at most spares the objects if this one does. -/
theorem callHost {ctx : Context σ} (name : String) (args : List Value)
    (hcalls : ∀ host, ctx.machine.host? name = some host → ∀ s called this args',
      (host args s).1 = .call called this args' → Spares (Act.outside (ctx.call called this args'))) :
    Spares (Machine.callHost ctx name args) := by
  unfold Machine.callHost
  split
  · exact .throw _
  · rename_i host hhost
    intro c z d h
    simp only [Act.bind_apply, Act.world_apply, Act.modifyWorld_apply] at h
    cases hreply : (host args c.world.hosts).1 with
    | value v | failure f =>
      rw [hreply] at h
      cases h
      rfl
    | call called this args' =>
      rw [hreply] at h
      exact hcalls host hhost _ called this args' hreply
        ⟨c.activation, { c.world with hosts := (host args c.world.hosts).2 }⟩ z d h

end Act.Spares

/-- Whether the routine calls a host method and returns, and nothing else. -/
def Routine.echoes (r : Routine) : Bool :=
  match r.instrs.toList, r.regions with
  | [.exec (.call _ .absent host []), .return .absent], [] => host.isHost
  | _, _ => false

theorem Routine.echoes_iff {r : Routine} : r.echoes = true ↔ ∃ o host, host.isHost = true ∧
    r.instrs = #[.exec (.call o .absent host []), .return .absent] ∧ r.regions = [] := by
  constructor
  · intro h
    unfold echoes at h
    split at h
    · rename_i o host hinstrs hregions
      exact ⟨o, host, h, Array.toList_inj.mp hinstrs, hregions⟩
    · cases h
  · rintro ⟨o, host, hhost, hinstrs, hregions⟩
    rw [echoes, hinstrs, hregions]
    exact hhost

/-- A run of such a routine spares the objects if the host method does. -/
theorem run_echoes {ctx : Context σ} {r : Routine} (hechoes : r.echoes = true)
    (hhosts : ∀ name args, (callHost ctx name args).Spares) (steps : Nat) (scope : Range) (pc : Nat) :
    (run ctx r steps scope pc).Spares := by
  obtain ⟨o, host, hhost, hinstrs, hregions⟩ := Routine.echoes_iff.mp hechoes
  have hraise : ∀ clean pc f, (raise r clean scope pc f : Act σ Nat).Spares := fun clean pc f => by
    rw [raise, Routine.regionsAt, hregions]
    exact fun c z d h => by
      cases h
      rfl
  induction steps generalizing pc with
  | zero =>
    intro c z d h
    cases h
  | succ steps ih =>
    rw [run]
    split
    · exact .throw _
    · rename_i instr hinstr
      refine .bind ?_ fun next => ?_
      · have hcases : instr = .exec (.call o .absent host []) ∨ instr = .return .absent := by
          split at hinstr
          · rw [hinstrs] at hinstr
            have hmem := Array.mem_of_getElem? hinstr
            simpa using hmem
          · cases hinstr
        rcases hcases with rfl | rfl
        · refine .bind (.attempt ?_) fun result => ?_
          · simp only [eval, evalAll, hhost, if_true]
            exact .bind (.pure _) fun _ => hhosts _ _
          · cases result with
            | ok _ => exact .pure _
            | error f => exact .bind (hraise _ _ f) fun _ => .pure _
        · refine .bind (.attempt (.pure _)) fun result => ?_
          cases result with
          | ok v =>
            rw [Routine.regionsAt, hregions]
            exact fun c z d h => by
              cases h
              rfl
          | error f => exact .bind (hraise _ _ f) fun _ => .pure _
      · cases next with
        | goto pc => exact ih pc
        | «return» v => exact .pure _
        | endFinally => exact .pure _

theorem callWithin_echoes {machine : Machine σ} {method : Method} {r : Routine}
    (hroutine : machine.routine method = .ok r) (hechoes : r.echoes = true)
    (hcalls : ∀ name host, machine.hosts name = some host → ∀ args s called this args',
      (host args s).1 = .call called this args' → called = method) (steps depth : Nat)
    (this : Option Ref) (args : List Value) :
    (Act.outside (callWithin machine steps depth method this args)).Spares := by
  induction depth generalizing this args with
  | zero =>
    intro c z d h
    rw [Act.outside_apply] at h
    simp only [callWithin, hroutine] at h
    cases h
    rfl
  | succ depth ih =>
    intro c z d h
    rw [Act.outside_apply] at h
    obtain ⟨p, hp, heq⟩ := Option.map_eq_some_iff.mp h
    simp only [callWithin, hroutine] at hp
    obtain ⟨q, hq, hpq⟩ := Option.bind_eq_some_iff.mp hp
    cases hpq
    cases heq
    have hhosts : ∀ name args,
        (callHost (contextWithin machine steps depth r.method) name args).Spares := fun name args =>
      .callHost name args fun host hhost s called this args' hreply => by
        obtain rfl := hcalls name host (hosts_of_call hhost hreply) _ _ _ _ _ hreply
        exact ih this args'
    exact run_echoes hechoes hhosts steps _ _ ⟨{ this, args }, c.world⟩ q.1 q.2 hq

end Resumable.Machine

namespace Resumable.Session

open Resumable.Symbol Resumable.Tree Resumable.Source Resumable.Lowering Resumable.StateMachine
open Resumable.Machine hiding Region Outcome Handler

variable {σ : Type}

/-! ## Starts -/

/-- The fields have the values that they are given, one by one. -/
theorem get?_foldl_put_zip {fs : List Field} {vs : List Value} (hnodup : fs.Nodup)
    (o : Bindings Field) {i : Nat} {f : Field} {v : Value} (hf : fs[i]? = some f)
    (hv : vs[i]? = some v) :
    ((fs.zip vs).foldl (fun o x => Bindings.put x.1 x.2 o) o).get? f = some v := by
  induction fs generalizing vs o i with
  | nil => cases hf
  | cons g rest ih =>
    obtain ⟨hg, hrest⟩ := List.nodup_cons.mp hnodup
    cases vs with
    | nil => cases hv
    | cons u vs =>
      cases i with
      | zero =>
        cases hf
        cases hv
        have hne : ∀ x ∈ rest.zip vs, x.1 ≠ f := by
          rintro x hx rfl
          exact hg (List.of_mem_zip hx).1
        exact (get?_foldl_put _ _ hne).trans (Bindings.get?_put_self _ _ _)
      | succ i => exact ih hrest _ hf hv

/-- An instance can be made with as many arguments as there are parameters. -/
theorem start_of_length (machine : Machine σ) (world : World σ) {sm : StateMachine}
    {args : List Value} (hlength : args.length = sm.params.length) :
    Enumerator.start machine world sm args = .ok (newest world sm, machine.load sm.methods,
      grown world (newFields sm args)) := by
  rw [start_eq, if_pos hlength]

section Start

variable {machine loaded : Machine σ} {markers : Bool} {m : MethodBody} {sm : StateMachine}
  {w b b' : Block} {made n : Nat} {plan : Plan} {last : Hoisted} {c : Contents}
  {invalid start : Label} {world world' : World σ} {args : List Value} {e : Enumerator}

/-- A new instance stands for a generator that has not begun. -/
theorem stands_start (hb : Built markers m (machineType m.symbol) sm plan c b made n)
    (hc : Counterpart m sm w made plan last c invalid start b')
    (hstart : Enumerator.start machine world sm args = .ok (e, loaded, world')) :
    Stands (pairingOf loaded e.object m plan last made w) stateCreated
      ⟨{ this := none, args }, world⟩ world' := by
  have hnodup := hc.sound.named.fields_nodup
  obtain ⟨hfields, hlocals, hapart⟩ := List.nodup_append.mp (List.nodup_append.mp hnodup).2.1
  have hstate : sm.state ∉ sm.params := by
    intro hmem
    rw [hc.params] at hmem
    refine (hc.sound.ne_of_mem (List.mem_append_left _ hmem)).1 ?_
    rw [hb.state]
    rfl
  have hlength : args.length = sm.params.length := by
    rw [start_eq] at hstart
    split at hstart
    · assumption
    · cases hstart
  obtain ⟨rfl, -, hcreated⟩ := start_created hstate hstart
  obtain rfl : world' = grown world (newFields sm args) := by
    rw [start_of_length _ _ hlength] at hstart
    cases hstart
    rfl
  have hget : ∀ f, (grown world (newFields sm args)).get (newest world sm).object f =
      ((newFields sm args).get? f).getD (Value.zero f.type) := fun f => by
    rw [World.get, getElem?_grown_newest, Option.bind_some]
  refine ⟨rfl, ?_, ⟨rfl, fun k hk => ?_⟩, fun i f hf => ?_, fun l f hl => ?_,
    fun _ hl => absurd hl List.not_mem_nil⟩
  · rw [hb.state] at hcreated
    exact hcreated
  · have hne : k ≠ world.objects.length := hk
    rcases Nat.lt_or_gt_of_ne hne with hless | hmore
    · exact List.getElem?_append_left hless
    · have hlong : (grown world (newFields sm args)).objects.length ≤ k := by
        rw [grown, List.length_append]
        exact hmore
      rw [List.getElem?_eq_none hlong, List.getElem?_eq_none (Nat.le_of_lt hmore)]
  · have hi : i < args.length := by
      rw [hlength, hc.params]
      exact (List.getElem?_eq_some_iff.mp hf).1
    have hnew : (newFields sm args).get? f = some args[i] :=
      get?_foldl_put_zip (hc.params ▸ hfields) _ (by rw [hc.params]; exact hf)
        (List.getElem?_eq_getElem hi)
    show args[i]? = _
    rw [List.getElem?_eq_getElem hi, pairingOf, hget, hnew]
    rfl
  · have hne : ∀ x ∈ sm.params.zip args, x.1 ≠ f := by
      rintro x hx rfl
      have hmem : x.1 ∈ last.params := hc.params ▸ (List.of_mem_zip hx).1
      obtain ⟨i, hi⟩ := List.getElem?_of_mem hmem
      exact hc.sound.param_ne_local hi hl rfl
    have hnew : (newFields sm args).get? f = none := by
      refine (get?_foldl_put _ _ hne).trans ?_
      have hstate := (hc.sound.ne_of_mem (House.local_mem hl)).1
      refine (Bindings.get?_put_of_ne (fun h => hstate ?_) _ _).trans rfl
      rw [h, hb.state]
      rfl
    have htype : f.type = l.type :=
      hc.sound.named.types (l, f) (mem_of_lookup hl)
    show Value.zero l.type = _
    rw [pairingOf, hget, hnew, htype]
    rfl

end Start

/-! ## Hosts that stay away -/

/-- Host methods that call nothing stay away from every instance. -/
theorem undisturbed_of_calling_nothing {machine : Machine σ}
    (h : ∀ name host, machine.hosts name = some host → ∀ args s called this args',
      (host args s).1 ≠ .call called this args') (r : Ref) :
    Undisturbed machine r ∧ Unaware machine r :=
  ⟨fun name host hhost args s called this args' _ hreply =>
      absurd (congrArg Prod.fst hreply) (h name host hhost args s called this args'),
    fun name host hhost args s called this args' _ hreply =>
      absurd (congrArg Prod.fst hreply) (h name host hhost args s called this args')⟩

/-- So do those that call a method that only calls one of them. -/
theorem undisturbed_of_echoes {machine : Machine σ} {method : Method}
    (hechoes : (machine.routine method).map Routine.echoes = .ok true)
    (hcalls : ∀ name host, machine.hosts name = some host → ∀ args s called this args',
      (host args s).1 = .call called this args' → called = method) (ref : Ref) :
    Undisturbed machine ref := by
  intro name host hhost args s called this args' s' hreply steps depth w z v hcall
  obtain rfl := hcalls name host hhost args s called this args' (congrArg Prod.fst hreply)
  obtain ⟨r, hroutine, hechoes⟩ : ∃ r, machine.routine called = .ok r ∧ r.echoes = true := by
    cases hroutine : machine.routine called with
    | error f =>
      rw [hroutine] at hechoes
      cases hechoes
    | ok r =>
      rw [hroutine] at hechoes
      exact ⟨r, rfl, Except.ok.inj hechoes⟩
  have hspares := callWithin_echoes hroutine hechoes hcalls steps depth this args'
    ⟨{ this, args := args' }, w⟩ z ⟨{ this, args := args' }, v⟩ (by rw [Act.outside_apply, hcall]; rfl)
  exact congrArg (·[ref.number]?) hspares

/-! ## State machines and generators -/

/-- Every method of a program that was read can be executed as a generator. -/
theorem flatten_generatorBody {file source : String} {program : Program}
    (hread : read file source = .ok program) {m : MethodBody} (hm : m ∈ program.methods)
    (markers : Bool) : flatten ⟨m.symbol, generatorBody markers m⟩ =
      .ok (routineOf m.symbol (generatorBody markers m)) := by
  have hbound := bound_methods hread hm
  obtain ⟨w, made, hwalk, hlaid, hverify⟩ := walkBody_ok hbound markers
  obtain ⟨-, hearlier, -⟩ := walkBody_labels hbound hlaid hverify
  obtain ⟨hverified, hlabels, htargets⟩ := verify_block_iff.mp hverify
  rw [(landingsBlock_of_verified hverified).1] at hearlier
  obtain ⟨i, hblock⟩ := hbound.bound
  have hready := readyBlock_walked hblock (walkedBlock_of_ok hwalk)
  have hwalked : walkedBody markers m = (w, made) := by
    have houtcome : (walkBlock markers m.body).outcome = (.ok w, made) := hwalk
    rw [walkedBody, houtcome]
  rw [generatorBody, hwalked]
  exact (executable_generatorOf hready hlabels hearlier fun l hl => (htargets l hl).1).flatten m.symbol

/-- A resumable method that has a state machine, as a generator, and an instance of the machine on the
same arguments answer every number of requests alike, with the host methods in the same state at each
answer: nothing in the method throws again, its jumps go into no handler or finally and out of no
finally, and none inside of an extracted try goes to a label directly before it; the host methods stay
away from the instance, and do not notice that finallys are called as methods.  The one comes to its
answers if and only if the other one does. -/
theorem machine_means_generator {file source : String} {program : Program}
    (hread : read file source = .ok program) {m : MethodBody} (hm : m ∈ program.methods)
    {markers : Bool} {sm : StateMachine} (hlower : lowerMethod markers m = .ok (.machine sm))
    (hrethrow : rethrowsBlock m.body = false)
    (hdisciplined : ∀ r ∈ regionsBlock [] m.body, r.Disciplined)
    (hrestarts : restartsBlock [] (walkedBody markers m).1 = false) (machine : Machine σ)
    (world : World σ) {args : List Value} (hargs : args.length = m.symbol.params.length) :
    ∃ generator e loaded world',
      flatten ⟨m.symbol, generatorBody markers m⟩ = .ok generator ∧
      Enumerator.start machine world sm args = .ok (e, loaded, world') ∧
      (Undisturbed loaded e.object → Unaware loaded e.object → ∀ n,
        (∀ steps xs, generate loaded steps generator n 0 ⟨{ this := none, args }, world⟩ = some xs →
          ∃ steps ys, e.answers loaded steps n world' = some ys ∧ Answer.AllAlike xs ys) ∧
        ∀ steps ys, e.answers loaded steps n world' = some ys →
          ∃ steps xs, generate loaded steps generator n 0 ⟨{ this := none, args }, world⟩ = some xs ∧
            Answer.AllAlike xs ys) := by
  obtain ⟨w, made, hwalk, hlaid, hverify⟩ := walkBody_ok (bound_methods hread hm) markers
  have hwalked : walkedBody markers m = (w, made) := by
    have houtcome : (walkBlock markers m.body).outcome = (.ok w, made) := hwalk
    rw [walkedBody, houtcome]
  have hgenerator : generatorBody markers m = generatorOf made w := by
    rw [generatorBody, hwalked]
  rw [hwalked] at hrestarts
  obtain ⟨plan, last, b, n, invalid, start, b', hb, hc⟩ :=
    counterpart_of_lowered hread hm hlower hrethrow hdisciplined hwalk hrestarts
  have hlength : args.length = sm.params.length := by
    rw [hargs, hc.params]
    exact hc.sound.length.symm
  have hstart := start_of_length machine world hlength
  refine ⟨_, _, _, _, flatten_generatorBody hread hm markers, hstart,
    fun hundisturbed hunaware n => ?_⟩
  have hboth := generates_iff hb hc hundisturbed hunaware hrethrow (carries_load hb machine) n
    (.inl rfl) (stands_start hb hc hstart)
  rw [hgenerator]
  refine ⟨fun steps xs hxs => ?_, fun steps ys hys => ?_⟩
  · obtain ⟨ys, ⟨steps, hys⟩, hall⟩ := hboth.1 xs ⟨steps, hxs⟩
    exact ⟨steps, ys, hys, hall⟩
  · obtain ⟨xs, ⟨steps, hxs⟩, hall⟩ := hboth.2 ys ⟨steps, hys⟩
    exact ⟨steps, xs, hxs, hall⟩

/-- Host methods that answer nothing and keep their arguments. -/
def keeping : Hosts (List Value) := fun _ => some fun args kept => (.value .null, kept ++ args)

/-- A method with a try inside of a loop, inside of another try. -/
def loopingSource : String :=
  "class C \x7b extern void F(int n); iterator int M(int limit) \x7b var i int = 0; try \x7b " ++
    "while (i < limit) \x7b i = i + 1; try \x7b F(i); yield return i; \x7d finally \x7b " ++
    "F(0 - i); \x7d \x7d \x7d finally \x7b F(100); \x7d \x7d \x7d"

theorem machine_means_generator_looping : ∃ program m sm generator e loaded world',
    read "" loopingSource = .ok program ∧ m ∈ program.methods ∧
    lowerMethod true m = .ok (.machine sm) ∧ rethrowsBlock m.body = false ∧
    (∀ r ∈ regionsBlock [] m.body, r.Disciplined) ∧
    restartsBlock [] (walkedBody true m).1 = false ∧
    [Value.int 2].length = m.symbol.params.length ∧
    flatten ⟨m.symbol, generatorBody true m⟩ = .ok generator ∧
    Enumerator.start { hosts := keeping } { hosts := [] } sm [.int 2] = .ok (e, loaded, world') ∧
    Undisturbed loaded e.object ∧ Unaware loaded e.object ∧
    generate loaded 100 generator 4 0 ⟨{ this := none, args := [.int 2] }, { hosts := [] }⟩ =
      some [(.element (.int 1), [.int 1]), (.element (.int 2), [.int 1, .int (-1), .int 2]),
        (.done, [.int 1, .int (-1), .int 2, .int (-2), .int 100])] ∧
    ∃ steps ys, e.answers loaded steps 4 world' = some ys ∧
      Answer.AllAlike [(.element (.int 1), [.int 1]), (.element (.int 2), [.int 1, .int (-1), .int 2]),
        (.done, [.int 1, .int (-1), .int 2, .int (-2), .int 100])] ys := by
  have hfact : (sample true loopingSource).bind (fun x =>
      (generate (Machine.load { hosts := keeping } x.2.methods) 100
        (routineOf x.1.symbol (generatorBody true x.1)) 4 0
        ⟨{ this := none, args := [.int 2] }, { hosts := [] }⟩).map fun xs =>
      (decide (rethrowsBlock x.1.body = false ∧ (∀ r ∈ regionsBlock [] x.1.body, r.Disciplined) ∧
        restartsBlock [] (walkedBody true x.1).1 = false ∧
        [Value.int 2].length = x.1.symbol.params.length), xs)) =
      some (true, [(.element (.int 1), [.int 1]),
        (.element (.int 2), [.int 1, .int (-1), .int 2]),
        (.done, [.int 1, .int (-1), .int 2, .int (-2), .int 100])]) := by
    rw [sample, show loopingSource = .ofList _ from append_ofList (append_ofList rfl rfl) rfl,
      read_ofList]
    decide +kernel
  obtain ⟨⟨m, sm⟩, hsample, hrest⟩ := Option.bind_eq_some_iff.mp hfact
  obtain ⟨program, hread, hm, hlower⟩ := sample_eq_some hsample
  obtain ⟨xs, hxs, heq⟩ := Option.map_eq_some_iff.mp hrest
  obtain ⟨hdecided, rfl⟩ := Prod.mk.inj heq
  obtain ⟨hrethrow, hdisciplined, hrestarts, hargs⟩ := of_decide_eq_true hdecided
  obtain ⟨generator, e, loaded, world', hflatten, hstart, hclaim⟩ := machine_means_generator hread hm
    hlower hrethrow hdisciplined hrestarts { hosts := keeping } { hosts := [] } hargs
  obtain ⟨rfl, rfl, -⟩ := start_created (state_notMem_params hread hm hlower) hstart
  obtain rfl := flatten_eq hflatten
  obtain ⟨hundisturbed, hunaware⟩ := @undisturbed_of_calling_nothing _
    (Machine.load { hosts := keeping } sm.methods) (by rintro _ _ ⟨⟩ _ _ _ _ _ ⟨⟩)
    (newest { hosts := [] } sm).object
  obtain ⟨steps, ys, hys, hall⟩ := (hclaim hundisturbed hunaware 4).1 100 _ hxs
  exact ⟨program, m, sm, _, _, _, _, hread, hm, hlower, hrethrow, hdisciplined, hrestarts, hargs,
    hflatten, hstart, hundisturbed, hunaware, hxs, steps, ys, hys, hall⟩

/-! ## Generators and machines that can be told apart -/

/-- The plain method that comes first in a program and the resumable one behind it, both lowered. -/
def samplePair (markers : Bool) (source : String) :
    Option (Program × (MethodBody × MethodBody) × MethodBody × StateMachine) :=
  (read "" source).toOption.bind fun program =>
    match program.methods with
    | [n, m] =>
      match lowerMethod markers n, lowerMethod markers m with
      | .ok (.plain x), .ok (.machine sm) => some (program, (n, x), m, sm)
      | _, _ => none
    | _ => none

theorem samplePair_eq_some {markers : Bool} {source : String} {program : Program} {n x m : MethodBody}
    {sm : StateMachine} (h : samplePair markers source = some (program, (n, x), m, sm)) :
    read "" source = .ok program ∧ program.methods = [n, m] ∧
      lowerMethod markers n = .ok (.plain x) ∧ lowerMethod markers m = .ok (.machine sm) := by
  unfold samplePair at h
  obtain ⟨program', hread, h⟩ := Option.bind_eq_some_iff.mp h
  split at h
  · rename_i hmethods
    split at h
    · rename_i hplain hmachine
      cases h
      exact ⟨read_of_toOption hread, hmethods, hplain, hmachine⟩
    · cases h
  · cases h

/-- A method whose finally calls a host method, and one that only calls the host method. -/
def deepSource : String :=
  "class C \x7b extern void F(); void N() \x7b F(); \x7d iterator int M() \x7b try \x7b " ++
    "yield return 1; \x7d finally \x7b F(); \x7d \x7d \x7d"

/-- Host methods that call the method, until they have been called so often. -/
def descending (method : Method) (limit : Nat) : Hosts Nat := fun _ => some fun _ count =>
  (if count < limit then .call method none [] else .value .null, count + 1)

/-- A method that jumps from inside of a try to a label directly before it. -/
def restartingSource : String :=
  "class C \x7b extern void F(); iterator int M() \x7b var i int = 0; L: \x7b try \x7b " ++
    "i = i + 1; yield return i; if (i < 3) goto L; \x7d finally \x7b F(); \x7d \x7d \x7d \x7d"

/-- Host methods that count their calls. -/
def counting : Hosts Nat := fun _ => some fun _ count => (.value .null, count + 1)

/-- A host method that uses up the levels of calls fails inside the machine only, where the finally is
a method of its own; and a jump from inside of a try to a label directly before it runs the finally
in the machine only. -/
theorem generator_told_apart :
    (∃ program n x m sm generator e loaded world', read "" deepSource = .ok program ∧
      program.methods = [n, m] ∧ lowerMethod false n = .ok (.plain x) ∧
      lowerMethod false m = .ok (.machine sm) ∧ rethrowsBlock m.body = false ∧
      (∀ r ∈ regionsBlock [] m.body, r.Disciplined) ∧
      restartsBlock [] (walkedBody false m).1 = false ∧ m.symbol.params = [] ∧
      flatten ⟨m.symbol, generatorBody false m⟩ = .ok generator ∧
      Enumerator.start (Machine.load { hosts := descending n.symbol 255 } [x]) { hosts := 0 } sm [] =
        .ok (e, loaded, world') ∧
      Undisturbed loaded e.object ∧
      generate loaded 20 generator 2 0 ⟨{ this := none, args := [] }, { hosts := 0 }⟩ =
        some [(.element (.int 1), 0), (.done, 256)] ∧
      e.answers loaded 20 2 world' =
        some [(.element (.int 1), 0), (.failed (.single (.depthExceeded "C.N")), 255)]) ∧
    ∃ program m sm generator e loaded world', read "" restartingSource = .ok program ∧
      m ∈ program.methods ∧ lowerMethod false m = .ok (.machine sm) ∧ rethrowsBlock m.body = false ∧
      (∀ r ∈ regionsBlock [] m.body, r.Disciplined) ∧ m.symbol.params = [] ∧
      flatten ⟨m.symbol, generatorBody false m⟩ = .ok generator ∧
      Enumerator.start { hosts := counting } { hosts := 0 } sm [] = .ok (e, loaded, world') ∧
      Undisturbed loaded e.object ∧ Unaware loaded e.object ∧
      generate loaded 50 generator 4 0 ⟨{ this := none, args := [] }, { hosts := 0 }⟩ =
        some [(.element (.int 1), 0), (.element (.int 2), 0), (.element (.int 3), 0), (.done, 1)] ∧
      e.answers loaded 50 4 world' =
        some [(.element (.int 1), 0), (.element (.int 2), 1), (.element (.int 3), 2), (.done, 3)] := by
  constructor
  · have hfact : (samplePair false deepSource).bind (fun x =>
        let m := x.2.2.1
        let sm := x.2.2.2
        let machine := Machine.load { hosts := descending x.2.1.1.symbol 255 } [x.2.1.2]
        let loaded := machine.load sm.methods
        (generate loaded 20 (routineOf m.symbol (generatorBody false m)) 2 0
          ⟨{ this := none, args := [] }, { hosts := 0 }⟩).bind fun xs =>
        ((newest { hosts := 0 } sm).answers loaded 20 2
          (grown { hosts := 0 } (newFields sm []))).map fun ys =>
        (decide (rethrowsBlock m.body = false ∧ (∀ r ∈ regionsBlock [] m.body, r.Disciplined) ∧
          restartsBlock [] (walkedBody false m).1 = false ∧ m.symbol.params = [] ∧ sm.params = [] ∧
          (loaded.routine x.2.1.1.symbol).map Routine.echoes = .ok true), xs, ys)) =
        some (true, [(.element (.int 1), 0), (.done, 256)],
          [(.element (.int 1), 0), (.failed (.single (.depthExceeded "C.N")), 255)]) := by
      rw [samplePair, show deepSource = .ofList _ from append_ofList rfl rfl, read_ofList]
      decide +kernel
    obtain ⟨⟨program, ⟨n, x⟩, m, sm⟩, hsample, hrest⟩ := Option.bind_eq_some_iff.mp hfact
    obtain ⟨xs, hxs, hrest⟩ := Option.bind_eq_some_iff.mp hrest
    obtain ⟨ys, hys, heq⟩ := Option.map_eq_some_iff.mp hrest
    obtain ⟨hdecided, heq⟩ := Prod.mk.inj heq
    obtain ⟨rfl, rfl⟩ := Prod.mk.inj heq
    obtain ⟨hrethrow, hdisciplined, hrestarts, hparams, hfields, hechoes⟩ := of_decide_eq_true hdecided
    obtain ⟨hread, hmethods, hplain, hlower⟩ := samplePair_eq_some hsample
    have hm : m ∈ program.methods := by simp [hmethods]
    refine ⟨program, n, x, m, sm, _, _, _, _, hread, hmethods, hplain, hlower, hrethrow, hdisciplined,
      hrestarts, hparams, flatten_generatorBody hread hm false,
      start_of_length _ _ (congrArg List.length hfields).symm, undisturbed_of_echoes hechoes ?_ _, hxs,
      hys⟩
    rintro _ _ ⟨⟩ args count called this args' hreply
    dsimp only at hreply
    split at hreply <;> cases hreply
    rfl
  · have hfact : (sample false restartingSource).bind (fun x =>
        let loaded := Machine.load { hosts := counting } x.2.methods
        (generate loaded 50 (routineOf x.1.symbol (generatorBody false x.1)) 4 0
          ⟨{ this := none, args := [] }, { hosts := 0 }⟩).bind fun xs =>
        ((newest { hosts := 0 } x.2).answers loaded 50 4
          (grown { hosts := 0 } (newFields x.2 []))).map fun ys =>
        (decide (rethrowsBlock x.1.body = false ∧
          (∀ r ∈ regionsBlock [] x.1.body, r.Disciplined) ∧ x.1.symbol.params = [] ∧
          x.2.params = []), xs, ys)) =
        some (true,
          [(.element (.int 1), 0), (.element (.int 2), 0), (.element (.int 3), 0), (.done, 1)],
          [(.element (.int 1), 0), (.element (.int 2), 1), (.element (.int 3), 2), (.done, 3)]) := by
      rw [sample, show restartingSource = .ofList _ from append_ofList rfl rfl, read_ofList]
      decide +kernel
    obtain ⟨⟨m, sm⟩, hsample, hrest⟩ := Option.bind_eq_some_iff.mp hfact
    obtain ⟨program, hread, hm, hlower⟩ := sample_eq_some hsample
    obtain ⟨xs, hxs, hrest⟩ := Option.bind_eq_some_iff.mp hrest
    obtain ⟨ys, hys, heq⟩ := Option.map_eq_some_iff.mp hrest
    obtain ⟨hdecided, heq⟩ := Prod.mk.inj heq
    obtain ⟨rfl, rfl⟩ := Prod.mk.inj heq
    obtain ⟨hrethrow, hdisciplined, hparams, hfields⟩ := of_decide_eq_true hdecided
    obtain ⟨hundisturbed, hunaware⟩ := @undisturbed_of_calling_nothing _
      (Machine.load { hosts := counting } sm.methods) (by rintro _ _ ⟨⟩ _ _ _ _ _ ⟨⟩)
      (newest { hosts := 0 } sm).object
    exact ⟨program, m, sm, _, _, _, _, hread, hm, hlower, hrethrow, hdisciplined, hparams,
      flatten_generatorBody hread hm false, start_of_length _ _ (congrArg List.length hfields).symm,
      hundisturbed, hunaware, hxs, hys⟩

end Resumable.Session
