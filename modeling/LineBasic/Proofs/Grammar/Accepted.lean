import Mathlib.Tactic.SplitIfs
import LineBasic.Grammar.Program
import LineBasic.Program.Walk
import LineBasic.Proofs.Grammar.Combinators

/-!
# What the grammar accepts

`Parser.Ensures p Q` says that everything that a parser accepts satisfies `Q`. A property that the
names, numbers and strings of the text have and that every way to build an expression keeps
(`Grammar.ExprClosed`) holds for all expressions that are read
(`Grammar.ExprClosed.ensures_expression`). If the targets have it too (`Grammar.ReadClosed`), it
holds for the expressions in the statements of a program (`Program.throughout_of_parse`). The lines
of a program ascend (`Program.lines_of_parse`).
-/

namespace LineBasic

/-! ## Parsers -/

namespace Parser

variable {α β : Type}

/-- Everything that the parser accepts satisfies `Q`. -/
def Ensures (p : Parser α) (Q : α → Prop) : Prop := ∀ ⦃s a rest⦄, p s = .accepted a rest → Q a

variable {p : Parser α} {P Q : α → Prop}

theorem ensures_true (p : Parser α) : p.Ensures fun _ => True := fun _ _ _ _ => trivial

theorem Ensures.mono (h : p.Ensures P) (hPQ : ∀ a, P a → Q a) : p.Ensures Q :=
  fun _ a _ haccepted => hPQ a (h haccepted)

theorem ensures_pure {a : α} (h : Q a) : (Pure.pure a : Parser α).Ensures Q := by
  rintro s b rest ⟨⟩
  exact h

theorem ensures_refuse : (refuse : Parser α).Ensures Q := by
  rintro s a rest ⟨⟩

theorem ensures_bind {f : α → Parser β} {Q : β → Prop} (h : p.Ensures P)
    (hf : ∀ a, P a → (f a).Ensures Q) : (p >>= f).Ensures Q := by
  intro s b rest haccepted
  change Parser.bind p f s = _ at haccepted
  rw [Parser.bind] at haccepted
  split at haccepted
  next a rest' ha => exact hf a (h ha) haccepted
  next => cases haccepted
  next => cases haccepted

/-- What is read first does not matter. -/
theorem ensures_after {f : α → Parser β} {Q : β → Prop} (hf : ∀ a, (f a).Ensures Q) :
    (p >>= f).Ensures Q :=
  ensures_bind (ensures_true p) fun a _ => hf a

theorem ensures_map {f : α → β} {Q : β → Prop} (h : p.Ensures P) (hf : ∀ a, P a → Q (f a)) :
    (f <$> p).Ensures Q :=
  ensures_bind h fun a ha => ensures_pure (hf a ha)

theorem ensures_orElse {q : Parser α} (hp : p.Ensures Q) (hq : q.Ensures Q) :
    (p.orElse q).Ensures Q := by
  intro s a rest haccepted
  rw [orElse] at haccepted
  split at haccepted
  next => exact hq haccepted
  next => exact hp haccepted

theorem ensures_optional (h : p.Ensures Q) : (optional p).Ensures fun found => ∀ a ∈ found, Q a := by
  intro s found rest haccepted
  rw [optional] at haccepted
  split at haccepted <;> cases haccepted
  next ha =>
    rintro _ ⟨⟩
    exact h ha
  next => rintro _ ⟨⟩

theorem ensures_firstOf {parsers : List (Parser α)} (h : ∀ p ∈ parsers, p.Ensures Q) :
    (firstOf parsers).Ensures Q := by
  induction parsers with
  | nil => exact ensures_refuse
  | cons p rest ih =>
    cases rest with
    | nil => exact h p List.mem_cons_self
    | cons =>
      exact ensures_orElse (h p List.mem_cons_self) (ih fun q hq => h q (List.mem_cons_of_mem _ hq))

theorem ensures_gather {step : Parser (List α × Bool)} (h : step.Ensures fun r => ∀ a ∈ r.1, Q a)
    (n : Nat) : (gather step n).Ensures fun items => ∀ a ∈ items, Q a := by
  induction n with
  | zero => exact ensures_refuse
  | succ n ih =>
    refine ensures_bind h fun r hr => ?_
    dsimp only
    split
    · refine ensures_bind ih fun later hlater => ensures_pure fun a ha => ?_
      exact (List.mem_append.1 ha).elim (hr a) (hlater a)
    · exact ensures_pure hr

theorem ensures_repeated {step : Parser (List α × Bool)}
    (h : step.Ensures fun r => ∀ a ∈ r.1, Q a) :
    (repeated step).Ensures fun items => ∀ a ∈ items, Q a :=
  fun s _ _ haccepted => ensures_gather h (s.length + 1) haccepted

theorem ensures_separated1 (separator : Parser β) (h : p.Ensures Q) :
    (separated1 separator p).Ensures fun items => items ≠ [] ∧ ∀ a ∈ items, Q a := by
  refine ensures_bind h fun first hfirst => ?_
  refine ensures_bind (ensures_repeated (Q := Q) ?_) fun others hothers => ?_
  · refine ensures_bind (ensures_optional (ensures_after fun _ => h)) fun found hfound => ?_
    cases found with
    | none => exact ensures_pure (List.forall_mem_nil _)
    | some a => exact ensures_pure (List.forall_mem_singleton.2 (hfound a rfl))
  · exact ensures_pure ⟨List.cons_ne_nil _ _, List.forall_mem_cons.2 ⟨hfirst, hothers⟩⟩

end Parser

namespace Grammar

open LineBasic.Parser

/-! ## Expressions -/

/-- The literals and the names that are read in expressions have the property, and so has what is
built from expressions that have it. -/
structure ExprClosed (P : Expr Float → Prop) : Prop where
  number : number.Ensures fun v => P (.number v.1 v.2)
  string : quoted.Ensures fun s => P (.string s)
  /-- A variable is read where no intrinsic function stands. -/
  named : ∀ ⦃s name rest⦄, variableName s = .accepted name rest → accepts intrinsicName s = false →
    P (.scalar name) ∧
      ∀ subscripts, subscripts ≠ [] → (∀ e ∈ subscripts, P e) → P (.element name subscripts)
  call : functionName.Ensures fun name => ∀ args, (∀ e ∈ args, P e) → P (.call name args)
  intrinsic : ∀ f args, (∀ e ∈ args, P e) → P (.intrinsic f args)
  unary : ∀ op operand, P operand → P (.unary op operand)
  binary : ∀ op left right, P left → P right → P (.binary op left right)

/-- The same for the expressions and the targets that are read. -/
structure ReadClosed (P : Expr Float → Prop) : Prop where
  number : number.Ensures fun v => P (.number v.1 v.2)
  string : quoted.Ensures fun s => P (.string s)
  named : variableName.Ensures fun name => P (.scalar name) ∧
    ∀ subscripts, subscripts ≠ [] → (∀ e ∈ subscripts, P e) → P (.element name subscripts)
  call : functionName.Ensures fun name => ∀ args, (∀ e ∈ args, P e) → P (.call name args)
  intrinsic : ∀ f args, (∀ e ∈ args, P e) → P (.intrinsic f args)
  unary : ∀ op operand, P operand → P (.unary op operand)
  binary : ∀ op left right, P left → P right → P (.binary op left right)

theorem ReadClosed.exprClosed {P : Expr Float → Prop} (h : ReadClosed P) : ExprClosed P where
  number := h.number
  string := h.string
  named _ _ _ haccepted _ := h.named haccepted
  call := h.call
  intrinsic := h.intrinsic
  unary := h.unary
  binary := h.binary

section Expressions

variable {P : Expr Float → Prop} {inner operand : Parser (Expr Float)}

theorem ensures_arguments (hinner : inner.Ensures P) :
    (arguments inner).Ensures fun args => args ≠ [] ∧ ∀ e ∈ args, P e :=
  ensures_after fun _ => ensures_bind (ensures_separated1 _ hinner) fun _ hargs =>
    ensures_after fun _ => ensures_pure hargs

/-- Arguments that may be left out. -/
theorem ensures_optionalArguments (hinner : inner.Ensures P) :
    (optional (arguments inner)).Ensures fun found => ∀ e ∈ found.getD [], P e :=
  (ensures_optional (ensures_arguments hinner)).mono fun found hfound => by
    cases found with
    | none => exact List.forall_mem_nil _
    | some args => exact (hfound args rfl).2

theorem ensures_subscripts? (hinner : inner.Ensures P) :
    (subscripts? inner).Ensures fun found =>
      ∀ subscripts ∈ found, subscripts ≠ [] ∧ ∀ e ∈ subscripts, P e := by
  refine ensures_after fun s => ?_
  split
  · refine ensures_bind (ensures_arguments hinner) fun args hargs => ensures_pure ?_
    rintro _ ⟨⟩
    exact hargs
  · refine ensures_pure ?_
    rintro _ ⟨⟩

namespace ExprClosed

variable (h : ExprClosed P)

include h

theorem ensures_namedExpr (hinner : inner.Ensures P) : (namedExpr inner).Ensures P := by
  intro s e rest haccepted
  obtain ⟨found, s₁, hfound, hthen⟩ := exists_of_bind haccepted
  rcases of_optional hfound with ⟨f, rfl, -⟩ | ⟨rfl, rfl, place, hplace⟩
  · exact ensures_bind (ensures_optionalArguments hinner) (fun args hargs =>
      ensures_pure (h.intrinsic f _ hargs)) hthen
  · obtain ⟨name, s₂, hname, hthen⟩ := exists_of_bind hthen
    obtain ⟨hscalar, helement⟩ := h.named hname (accepts_of_refused hplace)
    refine ensures_bind (ensures_subscripts? hinner) (fun found hfound => ?_) hthen
    cases found with
    | none => exact ensures_pure hscalar
    | some subscripts =>
      obtain ⟨hne, hall⟩ := hfound subscripts rfl
      exact ensures_pure (helement subscripts hne hall)

theorem ensures_atom (hinner : inner.Ensures P) : (atom inner).Ensures P := by
  refine ensures_firstOf ?_
  simp only [List.forall_mem_cons]
  refine ⟨?_, ?_, ?_, ?_, h.ensures_namedExpr hinner, List.forall_mem_nil _⟩
  · exact ensures_bind h.number fun v hv => ensures_pure hv
  · exact ensures_map h.string fun _ hs => hs
  · exact ensures_after fun _ => ensures_bind hinner fun e he => ensures_after fun _ =>
      ensures_pure he
  · exact ensures_bind h.call fun name hname =>
      ensures_bind (ensures_optionalArguments hinner) fun args hargs =>
        ensures_pure (hname _ hargs)

theorem of_repeat_unary {op : UnaryOp} {e : Expr Float} (he : P e) (n : Nat) :
    P (n.repeat (.unary op) e) := by
  induction n with
  | zero => exact he
  | succ n ih => exact h.unary op _ ih

theorem of_foldl_binary {others : List (BinaryOp × Expr Float)} {first : Expr Float}
    (hfirst : P first) (hothers : ∀ o ∈ others, P o.2) :
    P (others.foldl (fun left (op, right) => .binary op left right) first) := by
  induction others generalizing first with
  | nil => exact hfirst
  | cons o rest ih =>
    obtain ⟨ho, hrest⟩ := List.forall_mem_cons.1 hothers
    exact ih (h.binary _ _ _ hfirst ho) hrest

theorem ensures_leftGrouped {operator : Parser BinaryOp} (hoperand : operand.Ensures P) :
    (leftGrouped operator operand).Ensures P := by
  refine ensures_bind hoperand fun first hfirst => ?_
  refine ensures_bind (ensures_repeated (Q := fun o => P o.2) ?_) fun others hothers =>
    ensures_pure (h.of_foldl_binary hfirst hothers)
  refine ensures_after fun found => ?_
  cases found with
  | none => exact ensures_pure (List.forall_mem_nil _)
  | some op =>
    exact ensures_bind hoperand fun e he => ensures_pure (List.forall_mem_singleton.2 he)

theorem ensures_powerExpr (hinner : inner.Ensures P) : (powerExpr inner).Ensures P := by
  refine ensures_bind (h.ensures_atom hinner) fun base hbase => ?_
  refine ensures_bind (ensures_repeated (Q := P) ?_) fun exponents hexponents => ensures_pure ?_
  · refine ensures_after fun found => ?_
    cases found with
    | none => exact ensures_pure (List.forall_mem_nil _)
    | some =>
      refine ensures_bind (P := P) ?_ fun e he => ensures_pure (List.forall_mem_singleton.2 he)
      exact ensures_after fun signs => ensures_bind (h.ensures_atom hinner) fun e he =>
        ensures_pure (h.of_repeat_unary he signs)
  · clear hinner
    induction exponents generalizing base with
    | nil => exact hbase
    | cons e rest ih =>
      obtain ⟨he, hrest⟩ := List.forall_mem_cons.1 hexponents
      exact ih _ (h.binary _ _ _ hbase he) hrest

theorem ensures_impExpr (hinner : inner.Ensures P) : (impExpr inner).Ensures P := by
  have hnegation : (negationExpr inner).Ensures P :=
    ensures_after fun signs => ensures_bind (h.ensures_powerExpr hinner) fun e he =>
      ensures_pure (h.of_repeat_unary he _)
  have hrelational : (relationalExpr inner).Ensures P :=
    h.ensures_leftGrouped <| h.ensures_leftGrouped <| h.ensures_leftGrouped <|
      h.ensures_leftGrouped <| h.ensures_leftGrouped hnegation
  have hnot : (notExpr inner).Ensures P :=
    ensures_after fun words => ensures_bind hrelational fun e he =>
      ensures_pure (h.of_repeat_unary he words)
  exact h.ensures_leftGrouped <| h.ensures_leftGrouped <| h.ensures_leftGrouped <|
    h.ensures_leftGrouped <| h.ensures_leftGrouped hnot

theorem ensures_nested (depth : Nat) : (nested depth).Ensures P := by
  induction depth with
  | zero => exact ensures_refuse
  | succ depth ih => exact h.ensures_impExpr ih

/-- Every expression that is read has the property. -/
theorem ensures_expression : expression.Ensures P :=
  fun s _ _ haccepted => h.ensures_nested (s.length + 1) haccepted

end ExprClosed

theorem ReadClosed.ensures_expression (h : ReadClosed P) : expression.Ensures P :=
  h.exprClosed.ensures_expression

end Expressions
end Grammar

/-! ## Commands -/

/-- A target as the expression that it is spelled as. -/
def Target.spelled : Target Float → Expr Float
  | .scalar name => .scalar name
  | .element name subscripts => .element name subscripts

def Part.spelled : Part → Expr Float
  | .expr e => e
  | .target t => t.spelled

/-- The expressions that stand in a command, its targets and the arrays that it declares among
them. -/
def Command.spelled : Command → List (Expr Float)
  | .dim arrays => arrays.map fun a => .element a.name a.extents
  | c => c.parts.map Part.spelled

attribute [local simp] Command.spelled Command.parts Part.spelled

namespace Grammar

open LineBasic.Parser

namespace ReadClosed

variable {P : Expr Float → Prop} (h : ReadClosed P)

include h

theorem ensures_target : target.Ensures fun t => P t.spelled := by
  refine ensures_bind h.named fun name hname => ?_
  refine ensures_bind (ensures_subscripts? h.ensures_expression) fun found hfound => ?_
  cases found with
  | none => exact ensures_pure hname.1
  | some subscripts =>
    obtain ⟨hne, hall⟩ := hfound subscripts rfl
    exact ensures_pure (hname.2 subscripts hne hall)

theorem ensures_channel : channel.Ensures fun found => ∀ e ∈ found, P e :=
  ensures_optional <| ensures_after fun _ => ensures_bind h.ensures_expression fun _ he =>
    ensures_after fun _ => ensures_pure he

/-! ### Forms -/

theorem ensures_assignForm : assignForm.Ensures fun c => ∀ e ∈ c.spelled, P e :=
  ensures_after fun _ => ensures_bind h.ensures_target fun t ht => ensures_after fun _ =>
    ensures_bind h.ensures_expression fun e he => ensures_pure <| by
      simp [ht, he]

theorem ensures_printForm : printForm.Ensures fun c => ∀ e ∈ c.spelled, P e := by
  refine ensures_after fun _ => ensures_bind h.ensures_channel fun channel hchannel =>
    ensures_after fun _ => ?_
  refine ensures_bind (ensures_repeated (Q := fun item => ∀ e, item = .expr e → P e) ?_)
    fun items hitems => ensures_pure ?_
  · refine ensures_after fun _ => ensures_after fun rest => ?_
    split
    · exact ensures_pure (List.forall_mem_nil _)
    · refine ensures_after fun mark => ?_
      cases mark with
      | some mark =>
        refine ensures_pure (List.forall_mem_singleton.2 fun e he => ?_)
        split at he <;> cases he
      | none =>
        refine ensures_bind h.ensures_expression fun e he => ensures_pure ?_
        refine List.forall_mem_singleton.2 ?_
        rintro _ ⟨⟩
        exact he
  · simp only [Command.spelled, Command.parts, List.map_append, List.map_map, List.mem_append,
      List.mem_map, Option.mem_toList, List.mem_filterMap]
    rintro _ (⟨e, he, rfl⟩ | ⟨part, ⟨item, hitem, hpart⟩, rfl⟩)
    · exact hchannel e he
    · cases item with
      | expr e =>
        obtain rfl := Option.some.inj hpart
        exact hitems _ hitem e rfl
      | zone => cases hpart
      | join => cases hpart

theorem ensures_inputForm : inputForm.Ensures fun c => ∀ e ∈ c.spelled, P e := by
  refine ensures_after fun _ => ensures_bind h.ensures_channel fun channel hchannel =>
    ensures_after fun prompt => ensures_bind (ensures_separated1 _ h.ensures_target)
      fun targets htargets => ensures_pure ?_
  simp only [Command.spelled, Command.parts, List.map_append, List.map_map, List.mem_append,
    List.mem_map, Option.mem_toList]
  rintro _ (⟨e, he, rfl⟩ | ⟨t, ht, rfl⟩)
  · exact hchannel e he
  · exact htargets.2 t ht

theorem ensures_lineInputForm : lineInputForm.Ensures fun c => ∀ e ∈ c.spelled, P e := by
  refine ensures_after fun _ => ensures_after fun _ => ensures_bind h.ensures_channel
    fun channel hchannel => ensures_after fun prompt => ensures_bind h.ensures_target
      fun t ht => ensures_pure ?_
  simp only [Command.spelled, Command.parts, List.map_append, List.map_map, List.mem_append,
    List.mem_map, Option.mem_toList]
  rintro _ (⟨e, he, rfl⟩ | ⟨part, hpart, rfl⟩)
  · exact hchannel e he
  · obtain rfl := List.mem_singleton.1 hpart
    exact ht

theorem ensures_readForm : readForm.Ensures fun c => ∀ e ∈ c.spelled, P e := by
  refine ensures_after fun _ => ensures_bind (ensures_separated1 _ h.ensures_target)
    fun targets htargets => ensures_pure ?_
  simp only [Command.spelled, Command.parts, List.map_map, List.mem_map]
  rintro _ ⟨t, ht, rfl⟩
  exact htargets.2 t ht

theorem ensures_dimForm : dimForm.Ensures fun c => ∀ e ∈ c.spelled, P e := by
  have declaration : (do
      let name ← variableName
      return { name, extents := ← arguments expression : ArrayDecl }).Ensures
        fun a => P (.element a.name a.extents) :=
    ensures_bind h.named fun name hname =>
      ensures_bind (ensures_arguments h.ensures_expression) fun args hargs =>
        ensures_pure (hname.2 args hargs.1 hargs.2)
  refine ensures_after fun _ => ensures_bind (ensures_separated1 _ declaration)
    fun arrays harrays => ensures_pure ?_
  simp only [Command.spelled, List.mem_map]
  rintro _ ⟨a, ha, rfl⟩
  exact harrays.2 a ha

theorem ensures_defFnForm : defFnForm.Ensures fun c => ∀ e ∈ c.spelled, P e :=
  ensures_after fun _ => ensures_after fun _ => ensures_after fun _ => ensures_after fun _ =>
    ensures_bind h.ensures_expression fun _ he => ensures_pure (List.forall_mem_singleton.2 he)

theorem ensures_forForm : forForm.Ensures fun c => ∀ e ∈ c.spelled, P e := by
  refine ensures_after fun _ => ensures_after fun counter => ensures_after fun _ =>
    ensures_bind h.ensures_expression fun start hstart => ensures_after fun _ =>
      ensures_bind h.ensures_expression fun stop hstop => ?_
  refine ensures_bind (ensures_optional (ensures_after fun _ => h.ensures_expression))
    fun step hstep => ensures_pure ?_
  cases step with
  | none => simp [hstart, hstop]
  | some e => simp [hstart, hstop, hstep e rfl]

theorem ensures_whileForm : whileForm.Ensures fun c => ∀ e ∈ c.spelled, P e :=
  ensures_after fun _ => ensures_bind h.ensures_expression fun _ he =>
    ensures_pure (List.forall_mem_singleton.2 he)

theorem ensures_onForm : onForm.Ensures fun c => ∀ e ∈ c.spelled, P e := by
  refine ensures_after fun _ => ensures_after fun found => ?_
  cases found with
  | some =>
    exact ensures_after fun _ => ensures_after fun line => ensures_pure (List.forall_mem_nil _)
  | none =>
    refine ensures_bind h.ensures_expression fun selector hselector => ?_
    refine ensures_bind (P := fun form => form = .onGoto ∨ form = .onGosub) ?_ fun form hform => ?_
    · exact ensures_orElse (ensures_after fun _ => ensures_pure (.inl rfl))
        (ensures_after fun _ => ensures_pure (.inr rfl))
    · refine ensures_after fun lines => ensures_pure ?_
      rcases hform with rfl | rfl <;> exact List.forall_mem_singleton.2 hselector

theorem ensures_swapForm : swapForm.Ensures fun c => ∀ e ∈ c.spelled, P e :=
  ensures_after fun _ => ensures_bind h.ensures_target fun left hleft => ensures_after fun _ =>
    ensures_bind h.ensures_target fun right hright => ensures_pure <| by
      simp [hleft, hright]

theorem ensures_randomizeForm : randomizeForm.Ensures fun c => ∀ e ∈ c.spelled, P e := by
  refine ensures_after fun _ => ensures_after fun rest => ?_
  split
  · exact ensures_pure (List.forall_mem_nil _)
  · exact ensures_bind h.ensures_expression fun e he =>
      ensures_pure (List.forall_mem_singleton.2 he)

theorem ensures_deviceForm : deviceForm.Ensures fun c => ∀ e ∈ c.spelled, P e := by
  refine ensures_after fun w => ?_
  refine ensures_bind (ensures_repeated (Q := P) ?_) fun args hargs => ensures_pure ?_
  · refine ensures_after fun _ => ensures_after fun rest => ?_
    split
    · exact ensures_pure (List.forall_mem_nil _)
    · refine ensures_after fun mark => ?_
      cases mark with
      | some => exact ensures_pure (List.forall_mem_nil _)
      | none =>
        exact ensures_bind h.ensures_expression fun e he =>
          ensures_pure (List.forall_mem_singleton.2 he)
  · simp only [Command.spelled, Command.parts, List.map_map, List.mem_map]
    rintro _ ⟨e, he, rfl⟩
    exact hargs e he

end ReadClosed

/-! ### Forms without expressions -/

theorem spelled_of_resumeForm : resumeForm.Ensures fun c => c.spelled = [] := by
  refine ensures_after fun _ => ensures_after fun found => ?_
  cases found with
  | some => exact ensures_pure rfl
  | none =>
    refine ensures_after fun line => ?_
    split <;> exact ensures_pure rfl

theorem spelled_of_dataForm : dataForm.Ensures fun c => c.spelled = [] :=
  ensures_after fun _ => by
    rintro s c rest ⟨⟩
    rfl

theorem spelled_of_remarkForm : remarkForm.Ensures fun c => c.spelled = [] :=
  ensures_after fun _ => ensures_after fun _ => by
    rintro s c rest ⟨⟩
    rfl

variable {P : Expr Float → Prop}

/-- Every command that is read has the property for all its expressions. -/
theorem ReadClosed.ensures_command (h : ReadClosed P) :
    ∀ form ∈ remarkForm :: printForm :: commandForms,
      form.Ensures fun c => ∀ e ∈ c.spelled, P e := by
  have plain {form : Parser Command} (hform : form.Ensures fun c => c.spelled = []) :
      form.Ensures fun c => ∀ e ∈ c.spelled, P e :=
    hform.mono fun c hc => hc ▸ List.forall_mem_nil _
  have bare (w : String) (c : Command) (hc : c.spelled = []) :
      (bareForm w c).Ensures fun c => ∀ e ∈ c.spelled, P e :=
    plain (ensures_after fun _ => ensures_pure hc)
  have filled {α β : Type} {p : Parser α} {q : Parser β} {c : β → Command}
      (hc : ∀ b, (c b).spelled = []) :
      (p >>= fun _ => q >>= fun b => Pure.pure (c b)).Ensures fun c => ∀ e ∈ c.spelled, P e :=
    plain (ensures_after fun _ => ensures_after fun b => ensures_pure (hc b))
  simp only [commandForms, List.cons_append, List.nil_append, List.forall_mem_cons,
    List.forall_mem_append, List.forall_mem_map]
  refine ⟨plain spelled_of_remarkForm, h.ensures_printForm, h.ensures_forForm,
    filled fun _ => rfl, h.ensures_whileForm, filled fun _ => rfl, filled fun _ => rfl,
    bare _ _ rfl, h.ensures_onForm, plain spelled_of_resumeForm, h.ensures_lineInputForm,
    h.ensures_inputForm, h.ensures_readForm, plain spelled_of_dataForm, filled fun _ => rfl,
    h.ensures_dimForm, ?optionBase, ?defType, h.ensures_defFnForm, bare _ _ rfl,
    bare _ _ rfl, bare _ _ rfl, bare _ _ rfl, bare _ _ rfl, h.ensures_swapForm,
    h.ensures_randomizeForm, filled fun _ => rfl, filled fun _ => rfl, ?prompt,
    h.ensures_deviceForm, h.ensures_assignForm, List.forall_mem_nil _⟩
  case optionBase => exact ensures_after fun _ => filled fun _ => rfl
  case defType =>
    exact plain (ensures_after fun _ => ensures_after fun _ => ensures_pure rfl)
  case prompt => exact fun w _ => filled fun _ => rfl

/-! ## Statements -/

/-- Every statement in a list has the property, those inside arms included. -/
def Throughout (Q : Statement → Prop) (statements : List Statement) : Prop :=
  ∀ depth, ∀ o ∈ occurrencesOfList depth statements, Q o.1

section Statements

variable {Q : Statement → Prop}

theorem throughout_cons {s : Statement} {rest : List Statement} :
    Throughout Q (s :: rest) ↔ (∀ depth, ∀ o ∈ s.occurrences depth, Q o.1) ∧ Throughout Q rest := by
  simp only [Throughout, occurrencesOfList, List.forall_mem_append, forall_and]

theorem throughout_iff {statements : List Statement} :
    Throughout Q statements ↔ ∀ s ∈ statements, ∀ depth, ∀ o ∈ s.occurrences depth, Q o.1 := by
  induction statements with
  | nil => exact iff_of_true (fun _ => List.forall_mem_nil _) (List.forall_mem_nil _)
  | cons s rest ih => rw [throughout_cons, ih, List.forall_mem_cons]

/-- The commands and the conditions of a line have the property where their parts are read. -/
structure StatementLaw (P : Expr Float → Prop) (number : Nat) (Q : Statement → Prop) : Prop where
  command : ∀ place c, place.line = number → (∀ e ∈ c.spelled, P e) → Q (.command place c)
  conditional : ∀ place condition onTrue onFalse, place.line = number → P condition →
    Q (.conditional place condition onTrue onFalse)

variable {number : Nat} {inner : Parser (List Statement)}

theorem ensures_arm (hinner : inner.Ensures (Throughout Q)) :
    (arm inner).Ensures fun a => ∀ depth, ∀ o ∈ a.occurrences depth, Q o.1 := by
  have block : (Arm.block <$> inner).Ensures fun a => ∀ depth, ∀ o ∈ a.occurrences depth, Q o.1 :=
    ensures_map hinner fun _ h => h
  intro s a rest haccepted
  rw [arm] at haccepted
  split at haccepted
  · split at haccepted
    · cases haccepted
      exact fun _ => List.forall_mem_nil _
    · exact block haccepted
  · exact block haccepted

variable (h : ReadClosed P) (law : StatementLaw P number Q)

include h law

theorem ensures_conditionalForm (hinner : inner.Ensures (Throughout Q)) {place : Place}
    (hplace : place.line = number) :
    (conditionalForm inner place).Ensures fun s => ∀ depth, ∀ o ∈ s.occurrences depth, Q o.1 := by
  have line (n : Nat) : ∀ depth, ∀ o ∈ (Arm.line n).occurrences depth, Q o.1 :=
    fun _ => List.forall_mem_nil _
  refine ensures_after fun _ => ensures_bind h.ensures_expression fun condition hcondition => ?_
  refine ensures_bind (P := fun a : Arm => ∀ depth, ∀ o ∈ a.occurrences depth, Q o.1) ?_
    fun onTrue htrue => ?_
  · exact ensures_orElse (ensures_after fun _ => ensures_arm hinner)
      (ensures_after fun _ => ensures_after fun n => ensures_pure (line n))
  · refine ensures_bind (ensures_optional (ensures_after fun _ => ensures_arm hinner))
      fun onFalse hfalse => ensures_pure fun depth => ?_
    have self := law.conditional place condition onTrue onFalse hplace hcondition
    cases onFalse with
    | none => exact List.forall_mem_cons.2 ⟨self, htrue _⟩
    | some a =>
      exact List.forall_mem_cons.2 ⟨self, List.forall_mem_append.2 ⟨htrue _, hfalse a rfl _⟩⟩

theorem ensures_statementWith (hinner : inner.Ensures (Throughout Q)) (size : Nat) :
    (statementWith inner size number).Ensures fun s => ∀ depth, ∀ o ∈ s.occurrences depth, Q o.1 := by
  refine ensures_after fun _ => ensures_after fun rest => ensures_firstOf ?_
  have command : ∀ form ∈ remarkForm :: printForm :: commandForms,
      (Statement.command ⟨number, size - Text.byteSize rest + 1⟩ <$> form).Ensures
        fun s => ∀ depth, ∀ o ∈ s.occurrences depth, Q o.1 :=
    fun form hform => ensures_map (h.ensures_command form hform) fun c hc depth =>
      List.forall_mem_singleton.2 (law.command _ c rfl hc)
  simp only [List.forall_mem_cons] at command
  simp only [List.cons_append, List.nil_append, List.forall_mem_cons, List.forall_mem_map]
  exact ⟨command.1, command.2.1, ensures_conditionalForm h law hinner rfl, command.2.2⟩

theorem ensures_statementsNested (size depth : Nat) :
    (statementsNested size number depth).Ensures (Throughout Q) := by
  induction depth with
  | zero => exact ensures_refuse
  | succ depth ih =>
    have one := ensures_statementWith h law ih size
    refine (ensures_repeated (Q := fun s => ∀ depth, ∀ o ∈ s.occurrences depth, Q o.1) ?_).mono
      fun statements hstatements => throughout_iff.2 hstatements
    refine ensures_after fun _ => ensures_after fun rest => ?_
    split
    · exact ensures_pure (List.forall_mem_nil _)
    · exact ensures_after fun _ => ensures_pure (List.forall_mem_nil _)
    · split
      · exact ensures_pure (List.forall_mem_nil _)
      · refine ensures_bind one fun s hs => ensures_after fun _ => ensures_after fun rest' => ?_
        split <;> exact ensures_pure (List.forall_mem_singleton.2 hs)

/-- Every statement of a line that is read has the property. -/
theorem ensures_statements (size : Nat) : (statements size number).Ensures (Throughout Q) :=
  fun s _ _ haccepted => ensures_statementsNested h law size (s.length + 1) haccepted

end Statements

/-- Every statement of a program line has the property. -/
theorem ensures_programLine {Q : Nat → Statement → Prop} (h : ReadClosed P)
    (law : ∀ number, StatementLaw P number (Q number)) (sourceLine : Nat) :
    (programLine sourceLine).Ensures fun l => Throughout (Q l.number) l.statements := by
  intro text l rest haccepted
  refine ensures_bind (Q := fun l : ProgramLine => Throughout (Q l.number) l.statements)
    (ensures_true wholeNumber) (fun number _ => ?_) haccepted
  refine ensures_bind (ensures_statements h (law number) _) fun statements hstatements => ?_
  refine ensures_after fun _ => ensures_after fun left => ?_
  split
  · exact ensures_pure hstatements
  · exact ensures_refuse

end Grammar

/-! ## Programs -/

namespace Program

open Grammar

theorem mem_of_mem_insertLine {line l : ProgramLine} {lines : List ProgramLine}
    (h : l ∈ insertLine line lines) : l = line ∨ l ∈ lines := by
  induction lines with
  | nil => exact .inl (List.mem_singleton.1 h)
  | cons first rest ih =>
    rw [insertLine] at h
    split_ifs at h
    · exact List.mem_cons.1 h
    · exact (List.mem_cons.1 h).imp_right (List.mem_cons_of_mem _)
    · rcases List.mem_cons.1 h with rfl | h
      · exact .inr List.mem_cons_self
      · exact (ih h).imp_right (List.mem_cons_of_mem _)

/-- A line takes its place among lines of ascending numbers. -/
theorem pairwise_insertLine {line : ProgramLine} {lines : List ProgramLine}
    (h : lines.Pairwise fun a b => a.number < b.number) :
    (insertLine line lines).Pairwise fun a b => a.number < b.number := by
  induction lines with
  | nil => exact List.pairwise_singleton _ line
  | cons first rest ih =>
    obtain ⟨hfirst, hrest⟩ := List.pairwise_cons.1 h
    rw [insertLine]
    split_ifs with hlt heq
    · refine List.pairwise_cons.2 ⟨List.forall_mem_cons.2 ⟨hlt, fun b hb => ?_⟩, h⟩
      exact Nat.lt_trans hlt (hfirst b hb)
    · exact List.pairwise_cons.2 ⟨fun b hb => heq ▸ hfirst b hb, hrest⟩
    · refine List.pairwise_cons.2 ⟨fun b hb => ?_, ih hrest⟩
      rcases mem_of_mem_insertLine hb with rfl | hb
      · omega
      · exact hfirst b hb

/-- What is read of the lines of a text is read of one of them. -/
theorem exists_accepted_of_mem_readLines {line : ProgramLine} {texts : List (List Char)}
    {sourceLine offset : Nat} (h : .ok line ∈ readLines sourceLine offset texts) :
    ∃ sourceLine text rest, programLine sourceLine text = .accepted line rest := by
  induction texts generalizing sourceLine offset with
  | nil => cases h
  | cons text texts ih =>
    rw [readLines] at h
    split at h
    · exact ih h
    · split at h
      next l rest haccepted =>
        rcases List.mem_cons.1 h with heq | h
        · cases heq
          exact ⟨_, _, _, haccepted⟩
        · exact ih h
      all_goals exact ih ((List.mem_cons.1 h).resolve_left nofun)

/-- The lines of a program that is read ascend, and each of them is read of a line of the text. -/
theorem lines_of_parse {source : String} {p : Program} (h : parse source = .ok p) :
    (p.lines.Pairwise fun a b => a.number < b.number) ∧
      ∀ l ∈ p.lines, ∃ sourceLine text rest, programLine sourceLine text = .accepted l rest := by
  rw [parse] at h
  split at h
  · cases h
    refine List.foldlRecOn (readLines 1 0 (Text.lines source.toList)) _
      (motive := fun lines : List ProgramLine => (lines.Pairwise fun a b => a.number < b.number) ∧
        ∀ l ∈ lines, ∃ sourceLine text rest, programLine sourceLine text = .accepted l rest)
      ⟨List.Pairwise.nil, List.forall_mem_nil _⟩ fun lines hlines r hr => ?_
    cases r with
    | error => exact hlines
    | ok line =>
      refine ⟨pairwise_insertLine hlines.1, fun l hl => ?_⟩
      rcases mem_of_mem_insertLine hl with rfl | hl
      · exact exists_accepted_of_mem_readLines hr
      · exact hlines.2 l hl
  · cases h

/-- A property of the statements that are read, of which some line has the number. -/
theorem throughout_of_parse {P : Expr Float → Prop} {Q : Nat → Statement → Prop} {source : String}
    {p : Program} (hp : parse source = .ok p) (h : ReadClosed P)
    (law : ∀ number, StatementLaw P number (Q number)) :
    ∀ l ∈ p.lines, Throughout (Q l.number) l.statements := by
  intro l hl
  obtain ⟨sourceLine, text, rest, haccepted⟩ := (lines_of_parse hp).2 l hl
  exact ensures_programLine h law sourceLine haccepted

end Program
end LineBasic
