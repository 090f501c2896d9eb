import Resumable.Proofs.Source.Resolution

/-!
# Where methods are declared

The tokens of a text start one behind the other, every grammar rule goes on behind the tokens that
it has read, and a method starts at its first token.  So no two methods of a program are declared at
one place (`methods_placed`), and the place tells the methods apart, which their names need not.
-/

set_option autoImplicit false

namespace Resumable.Source

open Resumable.Text Resumable.Symbol Resumable.Tree

variable {α β : Type}

/-! ## Tokens -/

namespace Lexer

theorem offset_advance (p : Position) (c : Char) : p.offset < (advance p c).offset := by
  unfold advance
  split
  · show p.offset < p.offset + 1
    omega
  · have hsize := c.utf8Size_pos
    show p.offset < p.offset + c.utf8Size
    omega

theorem offset_foldl (cs : List Char) (p : Position) :
    p.offset ≤ (cs.foldl advance p).offset := by
  induction cs generalizing p with
  | nil => exact Int.le_refl _
  | cons c rest ih =>
    have hnext := offset_advance p c
    have hrest := ih (advance p c)
    exact Int.le_trans (Int.le_of_lt hnext) hrest

/-- The lexemes start one behind the other, the first of them at the given position. -/
theorem lexemes_ordered (p : Position) (cs : List Char) (ts : List Token)
    (h : lexemes p cs = .ok ts) :
    ts.Pairwise (fun t u => t.start.offset < u.start.offset) ∧
      ∀ t ∈ ts, p.offset ≤ t.start.offset := by
  fun_induction lexemes p cs generalizing ts with
  | case1 p =>
    cases h
    simp
  | case2 p c rest kind split hlexeme stop ih =>
    cases hlater : lexemes stop split.2 with
    | error f =>
      rw [hlater] at h
      cases h
    | ok later =>
      rw [hlater] at h
      cases h
      obtain ⟨hordered, hbehind⟩ := ih later hlater
      have hstop : p.offset < stop.offset := by
        obtain ⟨-, hne⟩ := lexeme?_append hlexeme
        obtain ⟨d, ds, hsplit⟩ := List.exists_cons_of_ne_nil hne
        have hfirst := offset_advance p d
        have hrest := offset_foldl ds (advance p d)
        have heq : stop = ds.foldl advance (advance p d) := by
          show split.1.foldl advance p = _
          rw [hsplit]
          rfl
        rw [heq]
        exact Int.lt_of_lt_of_le hfirst hrest
      refine ⟨List.pairwise_cons.mpr ⟨fun t ht => ?_, hordered⟩, fun t ht => ?_⟩
      · exact Int.lt_of_lt_of_le hstop (hbehind t ht)
      · rcases List.mem_cons.mp ht with rfl | ht
        · exact Int.le_refl _
        · exact Int.le_trans (Int.le_of_lt hstop) (hbehind t ht)
  | case3 p c rest hlexeme => cases h

end Lexer

/-- The tokens start one behind the other. -/
def Ordered (ts : List Token) : Prop := ts.Pairwise fun t u => t.start.offset < u.start.offset

theorem tokens_ordered {file source : String} {ts : List Token}
    (h : tokens file source = .ok ts) : Ordered ts := by
  unfold tokens at h
  cases hall : Lexer.lexemes { file, offset := 0, line := 1, column := 1 } source.toList with
  | error f =>
    rw [hall] at h
    cases h
  | ok all =>
    rw [hall] at h
    cases h
    exact (Lexer.lexemes_ordered _ _ all hall).1.sublist List.filter_sublist

/-! ## Rules -/

/-- What is read goes on behind the tokens that were taken. -/
def Goes (read : List Token → Outcome α) : Prop :=
  ∀ ts a rest, read ts = .accept a rest → rest <:+ ts

/-- The same, and at least one token is taken. -/
def Takes (read : List Token → Outcome α) : Prop :=
  ∀ ts a rest, read ts = .accept a rest → rest <:+ ts ∧ rest.length < ts.length

theorem Takes.goes {read : List Token → Outcome α} (h : Takes read) : Goes read :=
  fun ts a rest hread => (h ts a rest hread).1

theorem map_accept {f : α → β} {o : Outcome α} {b : β} {rest : List Token} :
    o.map f = .accept b rest ↔ ∃ a, o = .accept a rest ∧ f a = b := by
  cases o with
  | pass => simp [Outcome.map]
  | reject fault rest => simp [Outcome.map]
  | accept a rest' =>
    simp only [Outcome.map, Outcome.accept.injEq]
    constructor
    · rintro ⟨hb, hrest⟩
      exact ⟨a, ⟨rfl, hrest⟩, hb⟩
    · rintro ⟨_, ⟨rfl, hrest⟩, hb⟩
      exact ⟨hb, hrest⟩

theorem Takes.literal (text : String) : Takes (literal text).read := by
  intro ts t rest h
  cases ts with
  | nil => cases h
  | cons u us =>
    simp only [Source.literal] at h
    split at h
    · cases h
      exact ⟨List.suffix_cons _ _, by simp⟩
    · cases h

theorem Takes.tokenOf (kind : TokenKind) (name : String) : Takes (tokenOf kind name).read := by
  intro ts t rest h
  cases ts with
  | nil => cases h
  | cons u us =>
    simp only [Source.tokenOf] at h
    split at h
    · cases h
      exact ⟨List.suffix_cons _ _, by simp⟩
    · cases h

theorem Goes.literal (text : String) : Goes (literal text).read := (Takes.literal text).goes

theorem Goes.tokenOf (kind : TokenKind) (name : String) : Goes (tokenOf kind name).read :=
  (Takes.tokenOf kind name).goes

theorem Goes.ident : Goes ident.read := Goes.tokenOf .ident "ident"

theorem Goes.map {r : Rule α} (f : α → β) (h : Goes r.read) : Goes (r.map f).read := by
  intro ts b rest hread
  obtain ⟨a, ha, -⟩ := map_accept.mp hread
  exact h ts a rest ha

theorem Takes.map {r : Rule α} (f : α → β) (h : Takes r.read) : Takes (r.map f).read := by
  intro ts b rest hread
  obtain ⟨a, ha, -⟩ := map_accept.mp hread
  exact h ts a rest ha

theorem require_accept {s : Sequence α} {ts rest : List Token} {a : α} :
    s.require ts = .accept a rest ↔ s.read ts = .accept a rest := by
  unfold Sequence.require
  cases s.read ts <;> simp

/-- A sequence accepts if the first rule does and then the others do. -/
theorem cons_accept {r : Rule α} {s : Sequence β} {ts rest : List Token} {p : α × β} :
    (Sequence.cons r s).read ts = .accept p rest ↔
      ∃ between, r.read ts = .accept p.1 between ∧ s.read between = .accept p.2 rest := by
  obtain ⟨a, b⟩ := p
  simp only [Sequence.cons]
  cases r.read ts with
  | pass => simp
  | reject fault rest => simp
  | accept a' between =>
    simp only [map_accept, require_accept, Outcome.accept.injEq, Prod.mk.injEq]
    constructor
    · rintro ⟨b', hb, rfl, rfl⟩
      exact ⟨between, ⟨rfl, rfl⟩, hb⟩
    · rintro ⟨_, ⟨rfl, rfl⟩, hb⟩
      exact ⟨b, hb, rfl, rfl⟩

theorem Goes.cons {r : Rule α} {s : Sequence β} (hr : Goes r.read) (hs : Goes s.read) :
    Goes (Sequence.cons r s).read := by
  intro ts p rest h
  obtain ⟨between, hfirst, hothers⟩ := cons_accept.mp h
  exact (hs _ _ _ hothers).trans (hr _ _ _ hfirst)

theorem Takes.cons {r : Rule α} {s : Sequence β} (hr : Goes r.read) (hs : Takes s.read) :
    Takes (Sequence.cons r s).read := by
  intro ts p rest h
  obtain ⟨between, hfirst, hothers⟩ := cons_accept.mp h
  obtain ⟨hsuffix, hless⟩ := hs _ _ _ hothers
  have hbefore := hr _ _ _ hfirst
  exact ⟨hsuffix.trans hbefore, Nat.lt_of_lt_of_le hless hbefore.length_le⟩

theorem Takes.cons_first {r : Rule α} {s : Sequence β} (hr : Takes r.read) (hs : Goes s.read) :
    Takes (Sequence.cons r s).read := by
  intro ts p rest h
  obtain ⟨between, hfirst, hothers⟩ := cons_accept.mp h
  obtain ⟨hsuffix, hless⟩ := hr _ _ _ hfirst
  have hbehind := hs _ _ _ hothers
  exact ⟨hbehind.trans hsuffix, Nat.lt_of_le_of_lt hbehind.length_le hless⟩

/-- A located rule accepts where the rule does, and its span starts at the first token. -/
theorem located_accept {r : Rule α} {ts rest : List Token} {p : Span × α}
    (h : r.located.read ts = .accept p rest) :
    r.read ts = .accept p.2 rest ∧ p.1.start = (ts.headD default).start := by
  simp only [Rule.located] at h
  cases hread : r.read ts with
  | pass =>
    rw [hread] at h
    cases h
  | reject fault rest =>
    rw [hread] at h
    cases h
  | accept a rest' =>
    rw [hread] at h
    cases h
    exact ⟨rfl, rfl⟩

theorem Goes.located {r : Rule α} (h : Goes r.read) : Goes r.located.read :=
  fun ts p rest hread => h ts p.2 rest (located_accept hread).1

theorem Goes.choice {rules : List (Rule α)} (h : ∀ r ∈ rules, Goes r.read) :
    Goes (Rule.choice rules).read := by
  intro ts a rest
  show Rule.firstOf ts none rules = _ → _
  generalize none = held
  intro hread
  induction rules generalizing held with
  | nil =>
    simp only [Rule.firstOf] at hread
    split at hread <;> cases hread
  | cons r others ih =>
    have hothers := ih fun r hr => h r (List.mem_cons_of_mem _ hr)
    simp only [Rule.firstOf] at hread
    split at hread
    · rename_i a' rest' hfirst
      cases hread
      exact h r List.mem_cons_self ts a rest hfirst
    · exact hothers held hread
    · split at hread
      · cases hread
      · exact hothers _ hread

theorem Goes.optional {r : Rule α} (h : Goes r.read) : Goes r.optional.read := by
  intro ts a rest hread
  simp only [Rule.optional] at hread
  split at hread
  · rename_i a' rest' hfirst
    cases hread
    exact h ts a' rest hfirst
  · cases hread
    exact List.suffix_refl _
  · split at hread
    · cases hread
    · cases hread
      exact List.suffix_refl _

theorem repeatRead_accept {r : Rule α} {rounds : Nat} {ts rest : List Token} {as : List α}
    (h : Rule.repeatRead r (rounds + 1) ts = .accept as rest) :
    (as = [] ∧ rest = ts) ∨ ∃ a between as', r.read ts = .accept a between ∧
      Rule.repeatRead r rounds between = .accept as' rest ∧ as = a :: as' := by
  simp only [Rule.repeatRead] at h
  split at h
  · rename_i a between hfirst
    obtain ⟨as', has, rfl⟩ := map_accept.mp h
    exact .inr ⟨a, between, as', hfirst, has, rfl⟩
  · cases h
    exact .inl ⟨rfl, rfl⟩
  · split at h
    · cases h
    · cases h
      exact .inl ⟨rfl, rfl⟩

theorem Goes.many {r : Rule α} (h : Goes r.read) : Goes r.many.read := by
  intro ts
  show ∀ as rest, Rule.repeatRead r ts.length ts = .accept as rest → rest <:+ ts
  generalize ts.length = rounds
  induction rounds generalizing ts with
  | zero =>
    intro as rest hread
    cases hread
    exact List.suffix_refl _
  | succ rounds ih =>
    intro as rest hread
    rcases repeatRead_accept hread with ⟨-, rfl⟩ | ⟨a, between, as', hfirst, hothers, -⟩
    · exact List.suffix_refl _
    · exact (ih between as' rest hothers).trans (h ts a between hfirst)

/-- What a rule reads again and again starts at places one behind the other, if it starts where the
rule begins to read. -/
theorem many_ordered {r : Rule α} (h : Takes r.read) {start : α → Position}
    (hstart : ∀ ts a rest, r.read ts = .accept a rest → start a = (ts.headD default).start)
    {ts rest : List Token} (hordered : Ordered ts) {as : List α}
    (hread : r.many.read ts = .accept as rest) :
    as.Pairwise fun a b => (start a).offset < (start b).offset := by
  -- The places are those of some tokens, and the rounds to come only see later ones.
  suffices hall : ∀ rounds ts as rest, Ordered ts →
      Rule.repeatRead r rounds ts = .accept as rest →
      (as.Pairwise fun a b => (start a).offset < (start b).offset) ∧
        ∀ a ∈ as, ∃ t ∈ ts, start a = t.start by
    exact (hall _ ts as rest hordered hread).1
  intro rounds
  induction rounds with
  | zero =>
    intro ts as rest _ hread
    cases hread
    exact ⟨.nil, fun a ha => nomatch ha⟩
  | succ rounds ih =>
    intro ts as rest hordered hread
    rcases repeatRead_accept hread with ⟨rfl, -⟩ | ⟨a, between, as', hfirst, hothers, rfl⟩
    · exact ⟨.nil, fun a ha => nomatch ha⟩
    · obtain ⟨hsuffix, hless⟩ := h ts a between hfirst
      have hplace := hstart ts a between hfirst
      cases ts with
      | nil => cases hless
      | cons t later =>
        have hbehind : between <:+ later :=
          (List.suffix_cons_iff.mp hsuffix).resolve_left fun heq => by
            rw [heq] at hless
            exact Nat.lt_irrefl _ hless
        obtain ⟨hhead, hlater⟩ := List.pairwise_cons.mp hordered
        obtain ⟨hpairs, hplaces⟩ := ih between as' rest (hlater.sublist hbehind.sublist) hothers
        refine ⟨List.pairwise_cons.mpr ⟨fun b hb => ?_, hpairs⟩, fun b hb => ?_⟩
        · obtain ⟨u, hu, hb⟩ := hplaces b hb
          rw [hplace, hb]
          exact hhead u (hbehind.mem hu)
        · rcases List.mem_cons.mp hb with rfl | hb
          · exact ⟨t, List.mem_cons_self, hplace⟩
          · obtain ⟨u, hu, hb⟩ := hplaces b hb
            exact ⟨u, List.mem_cons_of_mem _ (hbehind.mem hu), hb⟩

theorem Goes.commaList {r : Rule α} (h : Goes r.read) : Goes (commaList r).read := by
  have hmore : Goes (Sequence.cons (Source.literal ",") (.one r)).toRule.read :=
    .cons (.literal _) h
  have hsome : Goes (commaSeparated r).read := .map _ (.cons h (.many hmore))
  exact .map _ (.optional hsome)

/-! ## The grammar -/

namespace Grammar

theorem goes_operand {chain : Rule Chain} (h : Goes chain.read) : Goes (operand chain).read := by
  have hunary : Goes unaryOp.read := by
    refine .choice (List.forall_mem_cons.mpr ⟨.map _ (.literal _), List.forall_mem_cons.mpr
      ⟨.map _ (.literal _), fun _ h => nomatch h⟩⟩)
  have hcall : Goes (call chain).read :=
    .map _ (.cons .ident (.cons (.literal _) (.cons (.commaList h) (.literal _))))
  have hatom : Goes (atom chain).read := by
    refine .choice ?_
    simp only [List.forall_mem_cons]
    exact ⟨hcall, .map _ (.tokenOf _ _), .map _ (.tokenOf _ _), .choice (by
      simp only [List.forall_mem_cons]
      exact ⟨.map _ (.literal _), .map _ (.literal _), fun _ h => nomatch h⟩),
      .map _ (.literal _), .map _ .ident, .map _ (.cons (.literal _) (.cons h (.literal _))),
      fun _ h => nomatch h⟩
  exact .map _ (.cons (.optional hunary) (.located hatom))

theorem goes_chain (levels : Nat) : Goes (chain levels).read := by
  induction levels with
  | zero => exact fun _ _ _ h => nomatch h
  | succ levels ih =>
    have hbinary : Goes binaryOp.read := by
      refine .choice fun r hr => ?_
      obtain ⟨op, -, rfl⟩ := List.mem_map.mp hr
      exact .map _ (.literal _)
    have hoperand := goes_operand ih
    have hmore : Goes ((Sequence.cons binaryOp (.one (operand (chain levels)))).toRule.named
        "BinOp").read := .cons hbinary hoperand
    have hoperands : Goes (operands (operand (chain levels))).read :=
      .map _ (.cons hoperand (.many hmore))
    exact hoperands

theorem goes_braces {statement : Rule Statement} (h : Goes statement.read) :
    Goes (braces statement).read :=
  .map _ (.cons (.literal _) (.cons (.many h) (.literal _)))

theorem goes_forms {expr : Rule Chain} {statement : Rule Statement} (hexpr : Goes expr.read)
    (hstatement : Goes statement.read) : ∀ r ∈ forms expr statement, Goes r.read := by
  have hblock := goes_braces hstatement
  have hhandler : Goes (handler (braces statement)).read :=
    .map _ (.cons (.literal _) (.cons (.optional (.map _ (.cons (.literal _) (.cons .ident
      (.literal _))))) hblock))
  have htail : ∀ {α : Type} (keyword : String) {r : Rule α}, Goes r.read →
      Goes ((Sequence.cons (literal keyword) (.one r)).toRule.map Prod.snd).read :=
    fun _ _ h => .map _ (.cons (.literal _) h)
  have hhead : ∀ {α β : Type} (keyword : String) {r : Rule α} (f : Token × α × Token → β),
      Goes r.read → Goes ((Sequence.cons (literal keyword) (.cons r
        (.one (literal ";")))).toRule.map f).read :=
    fun _ _ _ h => .map _ (.cons (.literal _) (.cons h (.literal _)))
  simp only [forms, List.forall_mem_cons]
  exact ⟨htail _ (.map _ hblock), .map _ hblock, .map _ (.literal _),
    .map _ (.cons (.literal _) (.cons .ident (.cons .ident (.cons (.optional (htail _ hexpr))
      (.literal _))))),
    .map _ (.cons (.literal _) (.cons (.literal _) (.cons hexpr (.literal _)))),
    .map _ (.cons (.literal _) (.cons (.literal _) (.literal _))),
    .map _ (hhead _ _ (.optional hexpr)),
    .map _ (.cons (.literal _) (.cons hblock (.cons (.many hhandler)
      (.optional (htail _ hblock))))),
    .map _ (hhead _ _ (.optional hexpr)),
    .map _ (.cons (.literal _) (.cons (.literal _) (.cons hexpr (.cons (.literal _)
      (.cons hstatement (.optional (htail _ hstatement))))))),
    .map _ (.cons (.literal _) (.cons (.literal _) (.cons hexpr (.cons (.literal _) hstatement)))),
    .map _ (.cons (.literal _) (.literal _)), .map _ (.cons (.literal _) (.literal _)),
    .map _ (hhead _ _ .ident), .map _ (.cons .ident (.literal _)),
    .map _ (.cons .ident (.cons (.literal _) (.cons hexpr (.literal _)))),
    .map _ (.cons hexpr (.literal _)), fun _ h => nomatch h⟩

theorem goes_statement {expr : Rule Chain} (hexpr : Goes expr.read) (levels : Nat) :
    Goes (statement expr levels).read := by
  induction levels with
  | zero => exact fun _ _ _ h => nomatch h
  | succ levels ih =>
    exact Goes.map _ (Goes.located (Goes.choice (goes_forms hexpr ih)))

/-- A method takes the token of its name, and it starts at its first token. -/
theorem takes_method {block : Rule Braces} (h : Goes block.read) :
    Takes (method block).read ∧ ∀ ts decl rest, (method block).read ts = .accept decl rest →
      decl.start = (ts.headD default).start := by
  have hmark : Goes lambdaMark.read :=
    .map _ (.cons (.literal _) (.cons (.literal _) (.cons (.literal _) (.literal _))))
  have hparam : Goes param.read := .map _ (.cons .ident .ident)
  have hident : Takes ident.read := Takes.tokenOf .ident "ident"
  constructor
  · intro ts decl rest hread
    obtain ⟨p, hp, -⟩ := map_accept.mp hread
    exact Takes.cons (.optional hmark) (Takes.cons (.optional (.literal _))
      (Takes.cons_first hident (.cons .ident (.cons (.literal _) (.cons (.commaList hparam)
        (.cons (.literal _) h)))))) ts p.2 rest (located_accept hp).1
  · intro ts decl rest hread
    obtain ⟨p, hp, rfl⟩ := map_accept.mp hread
    exact (located_accept hp).2

/-- The methods of a program start one behind the other. -/
theorem file_ordered {block : Rule Braces} (h : Goes block.read) {ts rest : List Token}
    (hordered : Ordered ts) {decl : ClassDecl} (hread : (file block).read ts = .accept decl rest) :
    decl.methods.Pairwise fun a b => a.start.offset < b.start.offset := by
  have hparam : Goes param.read := .map _ (.cons .ident .ident)
  have hhost : Goes host.read := .map _ (.cons (.literal _) (.cons .ident (.cons .ident
    (.cons (.literal _) (.cons (.commaList hparam) (.cons (.literal _) (.literal _)))))))
  obtain ⟨p, hp, rfl⟩ := map_accept.mp hread
  obtain ⟨t₁, h₁, hp⟩ := cons_accept.mp hp
  obtain ⟨t₂, h₂, hp⟩ := cons_accept.mp hp
  obtain ⟨t₃, h₃, hp⟩ := cons_accept.mp hp
  obtain ⟨t₄, h₄, hp⟩ := cons_accept.mp hp
  obtain ⟨t₅, h₅, -⟩ := cons_accept.mp hp
  have hsuffix : t₄ <:+ ts := (Goes.many hhost _ _ _ h₄).trans ((Goes.literal _ _ _ _ h₃).trans
    ((Goes.ident _ _ _ h₂).trans (Goes.literal _ _ _ _ h₁)))
  obtain ⟨htakes, hstart⟩ := takes_method h
  exact many_ordered htakes hstart (hordered.sublist hsuffix.sublist) h₅

end Grammar

theorem readClass_ordered {ts : List Token} (hordered : Ordered ts) {decl : ClassDecl}
    (h : readClass ts = .ok decl) :
    decl.methods.Pairwise fun a b => a.start.offset < b.start.offset := by
  have hblock := Grammar.goes_braces (Grammar.goes_statement (Grammar.goes_chain ts.length)
    ts.length)
  have haccept : ∃ rest, (Grammar.file (Grammar.braces (Grammar.statement
      (Grammar.chain ts.length) ts.length))).read ts = .accept decl rest := by
    unfold readClass at h
    dsimp only at h
    split at h
    · cases h
      exact ⟨_, by assumption⟩
    · split at h
      · cases h
        exact ⟨_, by assumption⟩
      · cases h
    · cases h
    · cases h
    · cases h
  obtain ⟨rest, hread⟩ := haccept
  exact Grammar.file_ordered hblock hordered hread

/-! ## Programs -/

/-- The symbol of a method has the class as its owner and the place of the declaration. -/
theorem symbol_resolve (cls : TypeDecl) (decl : MethodDecl) (p : Progress) :
    (decl.resolve cls p).1.symbol.owner = some cls ∧
      (decl.resolve cls p).1.symbol.locations = [decl.start.single] := by
  unfold MethodDecl.resolve
  cases decl.isIterator <;> exact ⟨rfl, rfl⟩

theorem mapM_fst {f : α → Resolve β} {γ : Type} {g : β → γ} {g' : α → γ}
    (h : ∀ a p, g (f a p).1 = g' a) : ∀ (as : List α) (p : Progress),
      ((as.mapM f p).1).map g = as.map g'
  | [], _ => rfl
  | a :: rest, p => by
    have hrest := mapM_fst h rest (f a p).2
    rw [List.mapM_cons]
    show g (f a p).1 :: ((rest.mapM f (f a p).2).1).map g = _
    rw [hrest, h, List.map_cons]

theorem parse_ordered {file source : String} {decl : ClassDecl}
    (h : parse file source = .ok decl) :
    decl.methods.Pairwise fun a b => a.start.offset < b.start.offset := by
  unfold parse at h
  cases htokens : tokens file source with
  | error f =>
    rw [htokens] at h
    cases h
  | ok ts =>
    rw [htokens] at h
    cases hclass : readClass ts with
    | error f =>
      change (readClass ts).mapError _ = _ at h
      rw [hclass] at h
      cases h
    | ok decl' =>
      change (readClass ts).mapError _ = _ at h
      rw [hclass] at h
      cases h
      exact readClass_ordered (tokens_ordered htokens) hclass

/-- The methods of a program belong to its class, and no two of them are declared at one place. -/
theorem methods_placed {file source : String} {program : Program}
    (h : read file source = .ok program) :
    (program.cls.role = .cls ∧ ∀ m ∈ program.methods, m.symbol.owner = some program.cls) ∧
      program.methods.Pairwise fun m m' => m.symbol.locations ≠ m'.symbol.locations := by
  obtain ⟨decl, hparse, rfl, -⟩ := read_ok h
  obtain ⟨p, hmethods⟩ : ∃ p, (decl.resolve {}).1.methods =
      (decl.methods.mapM (MethodDecl.resolve (decl.resolve {}).1.cls) p).1 := ⟨_, rfl⟩
  constructor
  · have howners : (decl.resolve {}).1.methods.map (fun m => m.symbol.owner) =
        decl.methods.map fun _ => some (decl.resolve {}).1.cls := by
      rw [hmethods]
      exact mapM_fst (fun d p => (symbol_resolve _ d p).1) decl.methods p
    refine ⟨rfl, fun m hm => ?_⟩
    have howner : m.symbol.owner ∈ decl.methods.map fun _ => some (decl.resolve {}).1.cls := by
      rw [← howners]
      exact List.mem_map_of_mem hm
    obtain ⟨_, -, howner⟩ := List.mem_map.mp howner
    exact howner.symm
  · have hplaces : (decl.resolve {}).1.methods.map (fun m => m.symbol.locations) =
        decl.methods.map fun d => [d.start.single] := by
      rw [hmethods]
      exact mapM_fst (fun d p => (symbol_resolve _ d p).2) decl.methods p
    rw [← List.pairwise_map (R := (· ≠ ·)), hplaces, List.pairwise_map]
    refine (parse_ordered hparse).imp fun {a b} hlt heq => ?_
    have hstart : a.start = b.start := by
      have := List.cons.inj heq
      exact congrArg Span.start this.1
    rw [hstart] at hlt
    exact Int.lt_irrefl _ hlt

/-- The place of a method tells it apart from the others. -/
theorem eq_of_locations {file source : String} {program : Program}
    (h : read file source = .ok program) {m m' : MethodBody} (hm : m ∈ program.methods)
    (hm' : m' ∈ program.methods) (heq : m.symbol.locations = m'.symbol.locations) : m = m' := by
  have hplaced := (methods_placed h).2
  generalize program.methods = methods at hm hm' hplaced
  induction methods with
  | nil => cases hm
  | cons x rest ih =>
    obtain ⟨hx, hrest⟩ := List.pairwise_cons.mp hplaced
    rcases List.mem_cons.mp hm with rfl | hrest₁
    · rcases List.mem_cons.mp hm' with rfl | hrest₂
      · rfl
      · exact absurd heq (hx m' hrest₂)
    · rcases List.mem_cons.mp hm' with rfl | hrest₂
      · exact absurd heq.symm (hx m hrest₁)
      · exact ih hrest₁ hrest₂ hrest

end Resumable.Source
