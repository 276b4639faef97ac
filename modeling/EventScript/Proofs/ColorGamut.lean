import Mathlib
import EventScript.Callable
import EventScript.Operation.Standard
import EventScript.Proofs.CallTargets
import EventScript.Proofs.CanonicalText
import EventScript.Proofs.Lowering.Derived
import EventScript.Proofs.Lowering.Literals
import EventScript.Proofs.Machine.Gamut
import EventScript.Proofs.MarkupReading
import EventScript.Proofs.Registry

/-!
Scripts make colors of 24 bits only. If the arguments of a call and what callbacks bring in have
none but such colors, so has everything that the call ever holds, and a text takes every color that
a string names.
-/
namespace EventScript

open Text

namespace RichText

/-- The string is six hexadecimal digits that denote the color, perhaps behind a number sign. -/
def NamesColor (text : String) (color : UInt32) : Prop := ∃ digits n,
  (text.toList = digits ∨ text.toList = '#' :: digits) ∧ digits.length = 6 ∧
    Hex.denoted? digits = some n ∧ color = .ofNat n

theorem readColor?_eq_some_iff {text : String} {color : UInt32} :
    readColor? text = some color ↔ NamesColor text color := by
  have hdigits (digits : List Char) : colorOfDigits? digits = some color ↔
      ∃ n, digits.length = 6 ∧ Hex.denoted? digits = some n ∧ color = .ofNat n := by
    by_cases hlength : digits.length = 6
    · simp [colorOfDigits?_eq hlength, hlength, eq_comm]
    · simp [colorOfDigits?, hlength]
  have hsign (digits : List Char) (n : Nat) : Hex.denoted? ('#' :: digits) ≠ some n := by
    intro h
    obtain ⟨d, hd⟩ := Hex.value?_of_denoted? h List.mem_cons_self
    cases hd
  unfold readColor?
  split
  · rename_i digits heq
    rw [hdigits]
    constructor
    · rintro ⟨n, hrest⟩
      exact ⟨digits, n, .inr heq, hrest⟩
    · rintro ⟨digits', n, heq' | heq', hrest⟩
      · rw [← heq', heq] at hrest
        exact absurd hrest.2.1 (hsign digits n)
      · cases heq.symm.trans heq'
        exact ⟨n, hrest⟩
  · rename_i hne
    rw [hdigits]
    constructor
    · rintro ⟨n, hrest⟩
      exact ⟨_, n, .inl rfl, hrest⟩
    · rintro ⟨digits', n, rfl | heq', hrest⟩
      · exact ⟨n, hrest⟩
      · exact absurd heq' (hne digits')

end RichText

open RichText

namespace Program

/-- A call of the schema at this position holds no colors but those of 24 bits. -/
structure KeepsToGamut (p : Program) (index : Nat) (args : List Value) (world : World) : Prop where
  constants : ∀ t, .text t ∈ p.constants → t.InGamut
  /-- At every moment, in all calls under way and in all containers that they lead to. -/
  moments : ∀ n, ∀ v ∈ args ++ (p.limited index args world n).held,
    (p.limited index args world n).world.heap.InGamut v
  /-- A text takes every color that a string names. -/
  takes : ∀ n s, p.limited index args world n = .running s →
    s.instruction? = some (.native .textColor) → ∀ t color rgb rest,
      s.frame.stack = .string color :: .text t :: rest → NamesColor color rgb →
        t.withColor rgb = .ok (t.recolor rgb) ∧
          p.step s = .running (s.goto (s.frame.next + 1) (.text (t.recolor rgb) :: rest))
  /-- Any other string is refused. -/
  refuses : ∀ n s, p.limited index args world n = .running s →
    s.instruction? = some (.native .textColor) → ∀ t color rest,
      s.frame.stack = .string color :: .text t :: rest → (∀ rgb, ¬NamesColor color rgb) →
        p.step s = .finished (.error (.invalidColor color)) s.world
  /-- Whether arguments are taken as they are or checked first. -/
  answers : ∀ fuel answer w, p.execute fuel index args world = some (answer, w) ∨
      Callable.invoke ⟨p, .routine index⟩ fuel args world = some (answer, w) →
    (∀ v ∈ args, w.heap.InGamut v) ∧ ∀ v, answer = .ok (some v) → w.heap.InGamut v

variable {p : Program} {s : State} {t : RichText} {color : String} {rest : List Value}

/-- No color that a string names is out of the gamut, so no text refuses one. -/
theorem apply_textColor : NativeOp.apply .textColor [.text t, .string color] =
    (readColor? color).elim (throw (.invalidColor color)) fun rgb =>
      pure (some (.text (t.recolor rgb))) := by
  simp only [NativeOp.apply, Effect.string, Effect.text, pure_bind]
  cases h : readColor? color with
  | none => rfl
  | some rgb => simp only [withColor_of_le (le_maxColor_of_readColor? h), Option.elim_some]

theorem free_textColor (hi : s.instruction? = some (.native .textColor))
    (hs : s.frame.stack = .string color :: .text t :: rest) :
    p.free s = (readColor? color).elim (.finished (.error (.invalidColor color)) s.world) fun rgb =>
      .running (s.goto (s.frame.next + 1) (.text (t.recolor rgb) :: rest)) := by
  have hoperands : s.frame.stack = [.text t, .string color].reverse ++ rest := hs
  rw [free_native hi hoperands rfl, apply_textColor]
  cases readColor? color <;> rfl

/-- A text goes where the text and the string were, so there is room for it. -/
theorem step_textColor (hi : s.instruction? = some (.native .textColor))
    (hs : s.frame.stack = .string color :: .text t :: rest) (hallow : p.limits.Allow s) :
    p.step s = (readColor? color).elim (.finished (.error (.invalidColor color)) s.world) fun rgb =>
      .running (s.goto (s.frame.next + 1) (.text (t.recolor rgb) :: rest)) := by
  have hfree := free_textColor (p := p) hi hs
  rcases cutsStep hallow with ⟨heq, -⟩ | ⟨e, -, hover⟩
  · rw [heq, hfree]
  · exfalso
    rcases (hover e).2 rfl with ⟨s', hs', hexceeds⟩ | ⟨⟨_, _, _, hcall, _⟩, _⟩
    · have hheight : s.frame.stack.length ≤ p.limits.stack :=
        hallow.operands s.frame List.mem_cons_self
      rw [hs] at hheight
      have hnext (v : Value) : p.limits.Allow (s.goto (s.frame.next + 1) (v :: rest)) :=
        hallow.of_callers rfl (Nat.le_of_succ_le hheight)
      rw [hfree] at hs'
      cases hread : readColor? color <;> rw [hread] at hs' <;> cases hs'
      exact Limits.allow_iff.1 (hnext _) e hexceeds
    · cases hi.symm.trans hcall

variable {index : Nat} {args : List Value} {world : World}

theorem ConstantsInGamut.answer {fuel : Nat} {answer : Answer} {w : World}
    (hp : p.ConstantsInGamut) (hargs : ∀ v ∈ args, world.heap.InGamut v)
    (hhosts : p.HostsKeepGamut index args world)
    (h : p.execute fuel index args world = some (answer, w)) :
    (∀ v ∈ args, w.heap.InGamut v) ∧ ∀ v, answer = .ok (some v) → w.heap.InGamut v := by
  rw [execute_eq] at h
  have hmoment := hp.limited hhosts hargs fuel
  cases hlimited : p.limited index args world fuel with
  | running s =>
    rw [hlimited] at h
    cases h
  | finished answer' w' =>
    rw [hlimited] at h hmoment
    cases h
    obtain ⟨hkept, hheld⟩ := List.forall_mem_append.1 hmoment
    refine ⟨hkept, ?_⟩
    rintro v rfl
    exact hheld v List.mem_cons_self

theorem ConstantsInGamut.keepsToGamut (hp : p.ConstantsInGamut)
    (hargs : ∀ v ∈ args, world.heap.InGamut v) (hhosts : p.HostsKeepGamut index args world) :
    p.KeepsToGamut index args world where
  constants := hp
  moments n := hp.limited hhosts hargs n
  takes n s hs hi t color rgb rest hstack hnames := by
    have hread := readColor?_eq_some_iff.2 hnames
    refine ⟨withColor_of_le (le_maxColor_of_readColor? hread) t, ?_⟩
    rw [step_textColor hi hstack (allow_of_limited hs), hread, Option.elim_some]
  refuses n s hs hi t color rest hstack hnames := by
    have hread : readColor? color = none :=
      Option.eq_none_iff_forall_ne_some.2 fun rgb h => hnames rgb (readColor?_eq_some_iff.1 h)
    rw [step_textColor hi hstack (allow_of_limited hs), hread, Option.elim_none]
  answers fuel answer w h := by
    rcases h with h | h
    · exact hp.answer hargs hhosts h
    · simp only [Callable.invoke] at h
      split at h
      · cases h
        exact ⟨hargs, nofun⟩
      · split at h
        · cases h
          exact ⟨hargs, nofun⟩
        · exact hp.answer hargs hhosts h

end Program

namespace Submission

variable {registry : Registry} {limits : Limits} {source : Submission} {p : Program}

theorem constantsInGamut_of_compile (h : source.compile registry limits = .ok p) :
    p.ConstantsInGamut := by
  let P (l : Literal) : Prop := ∀ t, l = .text t → t.InGamut
  have hcommon : Literal.Common P := by
    rintro _ _ _ ⟨⟩ t ⟨⟩
    rename_i hread
    exact inGamut_of_parseMarkup hread
  exact fun t ht => forall_constants hcommon h _ ht t rfl

/-- Compiled schemas make no colors but those of 24 bits, whenever their arguments and what
callbacks bring in have no others. -/
theorem keeps_to_gamut {index : Nat} {args : List Value} {world : World}
    (h : source.compile registry limits = .ok p) (hargs : ∀ v ∈ args, world.heap.InGamut v)
    (hhosts : p.HostsKeepGamut index args world) : p.KeepsToGamut index args world :=
  (constantsInGamut_of_compile h).keepsToGamut hargs hhosts

end Submission

/-! ### A text that a callback makes and the schema colors -/

/-- A callback that puts a red mark behind a text. -/
def HostFunction.stamp : HostFunction
  | [.text t], h => (.ok (.text (t.push ⟨"!", some 0xff0000⟩)), h)
  | _, h => (.error (.host "stamp" "not a text"), h)

namespace Operation

def stamp : Operation := ⟨"stamp", [⟨"t", .text⟩], .text, .host .stamp, "host", ""⟩

def color : Operation :=
  .native "text/color" [("text", .text), ("color", .string)] .text .textColor "text"
    "Recolor with a #rrggbb hex string"

end Operation

def Registry.stamping : Registry := .register .standard .stamp

namespace Definition

/-- A schema that stamps a text and colors it. -/
def dye : Definition where
  name := "f"
  schema := {
    name? := some "f"
    params := [⟨"t", .text, ⟨9, 15⟩⟩, ⟨"c", .string, ⟨17, 25⟩⟩]
    returns := .text
    body := .block ⟨35, 57⟩ [
      .call ⟨37, 55⟩ "color"
        [.call ⟨43, 51⟩ "stamp" [.read ⟨49, 50⟩ "t"] none, .read ⟨53, 54⟩ "c"] none]
    span := ⟨0, 57⟩ }

def dyeRoutine : Routine where
  name := "f"
  resource? := none
  params := [("t", .text), ("c", .string)]
  returns := .text
  code := #[.loadLocal 0, .invokeHost 0 1 true, .loadLocal 1, .native .textColor, .returnValue]
  localCount := 2
  localNames := #[some "t", some "c"]

section

variable {schemas : Table String Signature} {scope : Scope} {span span' : Span}

theorem targetOf_stamp (ht : scope.find? "t" = some ⟨.text, 0⟩) :
    Expr.targetOf ⟨.stamping, schemas⟩ scope span "stamp" [.read span' "t"] none =
      .ok (.operation .stamp) := by
  have htext : (Expr.read span' "t").typeOf ⟨.stamping, schemas⟩ scope = .ok .text := by
    simp [Expr.typeOf, Expr.infer, ht]
  have hfirst : [Expr.read span' "t"].head?.map (·.typeOf ⟨.stamping, schemas⟩ scope) =
      (some StaticType.text).map .ok := congrArg some htext
  have hfind : Registry.stamping.find? "stamp" = some .stamp := Table.find?_insert_self
  refine (Expr.targetOf_eq_ok_iff hfirst).2 ⟨.ofOperation .stamp, ?_, rfl,
    .cons ⟨_, htext, nofun, .inr (.inr rfl)⟩ .nil⟩
  simp [Context.candidates, Context.triedNames, hfind]

theorem targetOf_color (ht : scope.find? "t" = some ⟨.text, 0⟩)
    (hc : scope.find? "c" = some ⟨.string, 1⟩) :
    Expr.targetOf ⟨.stamping, schemas⟩ scope ⟨37, 55⟩ "color"
      [.call ⟨43, 51⟩ "stamp" [.read ⟨49, 50⟩ "t"] none, .read ⟨53, 54⟩ "c"] none =
        .ok (.operation .color) := by
  have htext : (Expr.call ⟨43, 51⟩ "stamp" [.read ⟨49, 50⟩ "t"] none).typeOf ⟨.stamping, schemas⟩
      scope = .ok .text := map_eq_ok.2 ⟨_, targetOf_stamp ht, rfl⟩
  have hstring : (Expr.read ⟨53, 54⟩ "c").typeOf ⟨.stamping, schemas⟩ scope = .ok .string := by
    simp [Expr.typeOf, Expr.infer, hc]
  have hfirst : [Expr.call ⟨43, 51⟩ "stamp" [.read ⟨49, 50⟩ "t"] none,
      .read ⟨53, 54⟩ "c"].head?.map (·.typeOf ⟨.stamping, schemas⟩ scope) =
        (some StaticType.text).map .ok := congrArg some htext
  have hplain : Registry.stamping.find? "color" = none :=
    (Table.find?_insert_of_ne (by decide)).trans (Registry.find?_standard_eq_none (by decide))
  have hfind : Registry.stamping.find? "text/color" = some .color := by
    have hposition : Operation.standard[18]? = some .color := rfl
    exact (Table.find?_insert_of_ne (by decide)).trans
      (Registry.find?_standard (List.mem_of_getElem? hposition))
  refine (Expr.targetOf_eq_ok_iff hfirst).2 ⟨.ofOperation .color, ?_, rfl,
    .cons ⟨_, htext, nofun, .inr (.inr rfl)⟩ (.cons ⟨_, hstring, nofun, .inr (.inr rfl)⟩ .nil)⟩
  have hname : Context.alternate .text "color" = "text/color" := by decide
  simp [Context.candidates, Context.triedNames, hplain, hname, hfind]

theorem lower_dye : ∃ s, dye.lower ⟨.stamping, schemas⟩ { pools := {} } = .ok (dyeRoutine, s) ∧
    s.pools.literals.entries = #[] ∧ s.pools.hosts.entries = #[("stamp", .stamp)] := by
  let scope : Scope := .ofParams dye.schema.params
  have ht : scope.find? "t" = some ⟨.text, 0⟩ :=
    Scope.find?_ofParams_of_getElem? (p := ⟨"t", .text, ⟨9, 15⟩⟩) (by decide) rfl
  have hc : scope.find? "c" = some ⟨.string, 1⟩ :=
    Scope.find?_ofParams_of_getElem? (p := ⟨"c", .string, ⟨17, 25⟩⟩) (by decide) rfl
  have hnames : scope.slotNames = #[some "t", some "c"] := by
    have hentries : scope.locals.entries = #[("t", ⟨.text, 0⟩), ("c", ⟨.string, 1⟩)] := by
      simp [scope, Scope.ofParams, dye, Scope.add, Scope.empty, Table.entries_insert_of_find?_none,
        Table.find?_insert_of_ne]
    rw [Scope.slotNames, hentries]
    rfl
  let pools : Pools := { hosts := Table.empty.insert "stamp" .stamp }
  let ctx : Context := ⟨.stamping, schemas⟩
  have hread : Lowered ctx 0 (.operand .text (.read ⟨49, 50⟩ "t")) ⟨{}, scope⟩ .text
      #[.loadLocal 0] [] ⟨{}, scope⟩ :=
    .of_eq (.operand (.read (s := ⟨{}, scope⟩) ht) (by decide) rfl) (by rfl)
  have hstamp : (Target.operation .stamp).lower ctx ⟨43, 51⟩ 1 ⟨{}, scope⟩ =
      .ok (.invokeHost 0 1 true, ⟨pools, scope⟩) := by
    have hempty : (Table.empty : Table String HostFunction).position? "stamp" = none :=
      Table.position?_eq_none_iff.2 Table.find?_empty
    have hhost : Lower.host "stamp" .stamp ⟨43, 51⟩ ⟨{}, scope⟩ = .ok (0, ⟨pools, scope⟩) := by
      simp only [Lower.host, Pools.host, hempty]
      rfl
    exact Lower.bind_eq_ok.2 ⟨_, _, hhost, rfl⟩
  have hcall : Lowered ctx 0 (.expr (.call ⟨43, 51⟩ "stamp" [.read ⟨49, 50⟩ "t"] none))
      ⟨{}, scope⟩ (Target.operation .stamp).returns (#[.loadLocal 0] ++ #[.invokeHost 0 1 true]) []
      ⟨pools, scope⟩ :=
    .call (targetOf_stamp ht) (.arguments hread .noArguments) hstamp
  have hread' : Lowered ctx 2 (.operand .string (.read ⟨53, 54⟩ "c")) ⟨pools, scope⟩ .string
      #[.loadLocal 1] [] ⟨pools, scope⟩ :=
    .of_eq (.operand (.read (s := ⟨pools, scope⟩) hc) (by decide) rfl) (by rfl)
  have hstamped : Lowered ctx 0
      (.operand .text (.call ⟨43, 51⟩ "stamp" [.read ⟨49, 50⟩ "t"] none)) ⟨{}, scope⟩ .text
      #[.loadLocal 0, .invokeHost 0 1 true] [] ⟨pools, scope⟩ :=
    .of_eq (.operand hcall (by decide) rfl) (by rfl)
  have hcolor : (Target.operation .color).lower ctx ⟨37, 55⟩ 2 ⟨pools, scope⟩ =
      .ok (.native .textColor, ⟨pools, scope⟩) := rfl
  have hdyed : Lowered ctx 0 (.expr (.call ⟨37, 55⟩ "color"
      [.call ⟨43, 51⟩ "stamp" [.read ⟨49, 50⟩ "t"] none, .read ⟨53, 54⟩ "c"] none))
      ⟨{}, scope⟩ (Target.operation .color).returns
      (#[.loadLocal 0, .invokeHost 0 1 true, .loadLocal 1] ++ #[.native .textColor]) []
      ⟨pools, scope⟩ :=
    .call (targetOf_color ht hc) (.arguments hstamped (.arguments hread' .noArguments)) hcolor
  have hlowers := Lowers.intro (d := dye) rfl (by decide) (.statements hdyed .noStatements)
    (.value (by decide) (by decide) (by decide))
  rw [hnames] at hlowers
  exact ⟨_, hlowers.lower (by decide) (by decide), rfl,
    Table.entries_insert_of_find?_none Table.find?_empty⟩

end

end Definition

def Program.dye : Program where
  routines := #[Definition.dyeRoutine]
  hosts := #[.stamp]

namespace Submission

def dye : Submission := .text "schema f(t text, c string) -> text \x7b color(stamp(t), c) \x7d"

theorem definitions_dye : dye.definitions = .ok [.dye] := by cbv

theorem compile_dye : dye.compile .stamping {} = .ok .dye := by
  obtain ⟨s, hs, hliterals, hhosts⟩ := Definition.lower_dye
  rw [compile_eq, definitions_dye]
  refine (Program.ofDefinitions_singleton {} hs).trans ?_
  rw [hliterals, hhosts]
  simp [Program.dye]

/-- The mark is red, and the text before it is an operand. -/
theorem hostsKeepGamut_dye (args : List Value) (world : World) :
    Program.dye.HostsKeepGamut 0 args world := by
  intro n s _ call passed hcall hheld
  obtain ⟨hkept, hheld⟩ := List.forall_mem_append.1 hheld
  obtain ⟨hoperands, -⟩ := State.forall_held_iff.1 hheld
  obtain ⟨hstamp, hpassed⟩ := Program.mem_of_invocation? hcall
  cases Array.mem_singleton.1 hstamp
  have hheap : (HostFunction.stamp passed s.world.heap).2 = s.world.heap := by
    unfold HostFunction.stamp
    split <;> rfl
  rw [hheap]
  refine ⟨List.forall_mem_append.2 ⟨hkept, hheld⟩, fun v hv => ?_⟩
  unfold HostFunction.stamp at hv
  split at hv
  · cases hv
    have ht := Heap.inGamut_text.1 (hoperands _ (hpassed _ List.mem_cons_self))
    refine Heap.inGamut_text.2 (ht.push ?_)
    rintro _ ⟨⟩
    decide +kernel
  · cases hv

/-- A blue text is stamped in red and colored green. -/
theorem dye_keeps_to_gamut :
    let blue : RichText := ⟨[⟨"hi", some 0x0000ff⟩]⟩
    let green : RichText := ⟨[⟨"hi!", some 0x00ff00⟩]⟩
    dye.compile .stamping {} = .ok .dye ∧
    Program.dye.execute 5 0 [.text blue, .string "#00ff00"] .blank =
      some (.ok (some (.text green)), .blank) ∧
    Program.dye.KeepsToGamut 0 [.text blue, .string "#00ff00"] .blank := by
  refine ⟨compile_dye, ?_, keeps_to_gamut compile_dye ?_ (hostsKeepGamut_dye _ _)⟩
  · rfl
  · refine List.forall_mem_cons.2 ⟨Heap.inGamut_text.2 ?_, List.forall_mem_singleton.2 ?_⟩
    · intro s hs
      cases List.mem_singleton.1 hs
      rintro _ ⟨⟩
      decide +kernel
    · exact Heap.inGamut_of_plain rfl nofun

end Submission

end EventScript
