import Mathlib.Data.List.Forall2
import EnglishScript.Compiler
import EnglishScript.Proofs.SourceTree

namespace EnglishScript

theorem Text.ofGlyph_ne_nil (g : Glyph) : ofGlyph g ≠ [] := by
  cases g with
  | char c =>
    have hsize := c.utf8Size_pos
    rw [← String.length_utf8EncodeChar] at hsize
    exact List.ne_nil_of_length_pos hsize
  | stray b => exact List.cons_ne_nil b []

/-- A text is blank if nothing is left of it when it is trimmed. -/
theorem Text.isBlank_iff (t : Text) : t.isBlank = true ↔ t.trim = [] := by
  have hall : t.isBlank = true ↔ ∀ g ∈ t.glyphs, isBlankGlyph g = true := List.all_eq_true
  rw [hall]
  constructor
  · intro h
    have hfront : t.glyphs.dropWhile isBlankGlyph = [] := List.dropWhile_eq_nil_iff.mpr h
    simp only [trim, hfront, List.reverse_nil, List.dropWhile_nil, List.flatMap_nil]
  · intro h
    rw [← List.dropWhile_eq_nil_iff]
    by_contra hfront
    -- the first glyph that is not blank stays at the front, so the text is not trimmed away
    have hback : ((t.glyphs.dropWhile isBlankGlyph).reverse.dropWhile isBlankGlyph) = [] := by
      have hnil := List.flatMap_eq_nil_iff.mp h
      rw [List.eq_nil_iff_forall_not_mem]
      intro g hg
      exact ofGlyph_ne_nil g (hnil g (List.mem_reverse.mpr hg))
    have hfirst := List.dropWhile_eq_nil_iff.mp hback
    have hblank := hfirst _ (List.mem_reverse.mpr (List.head_mem hfront))
    have hnot := List.head_dropWhile_not isBlankGlyph hfront
    rw [hblank] at hnot
    cases hnot

namespace Compiler

/-- How a compilation ends, with what it reports and the compiler after it. -/
inductive Ends [Python.Checker] (verify : Bool) (source : Text) : CompileResult × Compiler → Prop
  | blank (hblank : source.trim = []) : Ends verify source ((Compiler.new verify).fail .emptySource)
  | lexing {e : LexError} (hvisible : source.trim ≠ []) (hlex : lex source = .error e) :
    Ends verify source ((Compiler.new verify).fail (.source (.lex e)))
  | parsing {tokens : List Token} {e : ParseError} (hvisible : source.trim ≠ []) (hlex : lex source = .ok tokens)
    (hparse : parseProgram tokens = .error e) :
    Ends verify source (fail ⟨verify, tokens, none, [], []⟩ (.source (.parse e)))
  | refused {tokens : List Token} {p : Program} {e : Python.Invalid} (hvisible : source.trim ≠ [])
    (hlex : lex source = .ok tokens) (hparse : parseProgram tokens = .ok p) (hverify : verify = true)
    (hcheck : Python.Checker.verdict (Program.python p) = .error e) :
    Ends verify source (fail ⟨verify, tokens, some p, [], []⟩ (.python e))
  | success {tokens : List Token} {p : Program} (hvisible : source.trim ≠ []) (hlex : lex source = .ok tokens)
    (hparse : parseProgram tokens = .ok p)
    (hcheck : verify = true → ∃ count, Python.Checker.verdict (Program.python p) = .ok count) :
    Ends verify source (succeed ⟨verify, tokens, some p, [], []⟩ (Program.python p))

theorem compile_ends [Python.Checker] (c : Compiler) (source : Text) : Ends c.verify source (c.compile source) := by
  unfold compile
  by_cases hblank : source.isBlank = true
  · simp only [hblank, ↓reduceIte]
    exact .blank ((Text.isBlank_iff source).mp hblank)
  · have hvisible : source.trim ≠ [] := fun h => hblank ((Text.isBlank_iff source).mpr h)
    simp only [hblank, Bool.false_eq_true, ↓reduceIte]
    cases hlex : lex source with
    | error e => exact .lexing hvisible hlex
    | ok tokens =>
      cases hparse : parseProgram tokens with
      | error e => simpa only [hparse] using .parsing hvisible hlex hparse
      | ok p =>
        simp only [hparse, emit, Compiler.new]
        cases hverify : c.verify with
        | false => exact .success hvisible hlex hparse (fun h => by cases h)
        | true =>
          cases hcheck : Python.Checker.verdict (Program.python p) with
          | error e => simpa only [↓reduceIte] using .refused hvisible hlex hparse rfl hcheck
          | ok count => simpa only [↓reduceIte] using .success hvisible hlex hparse (fun _ => ⟨count, hcheck⟩)

/-- Sources given to a compiler one after the other: what each call reports, and the compiler after it. -/
def compileEach [Python.Checker] (c : Compiler) : List Text → List (CompileResult × Compiler)
  | [] => []
  | source :: rest => c.compile source :: (c.compile source).2.compileEach rest

theorem Ends.verify_eq [Python.Checker] {verify : Bool} {source : Text} {step : CompileResult × Compiler}
    (h : Ends verify source step) : step.2.verify = verify := by
  cases h <;> rfl

/-- Nothing of a compiler but whether it checks its output matters to a compilation. -/
theorem compile_forgets [Python.Checker] (c : Compiler) (source : Text) :
    c.compile source = (Compiler.new c.verify).compile source :=
  rfl

theorem compileEach_eq_map [Python.Checker] (c : Compiler) (sources : List Text) :
    c.compileEach sources = sources.map (Compiler.new c.verify).compile := by
  -- a compilation keeps whether the compiler checks, and the next one starts from nothing else
  induction sources generalizing c with
  | nil => rfl
  | cons source rest ih => rw [compileEach, ih, (c.compile_ends source).verify_eq, compile_forgets, List.map_cons]

theorem compileEach_forall [Python.Checker] (c : Compiler) {holds : Text → CompileResult × Compiler → Prop}
    (h : ∀ source step, Ends c.verify source step → holds source step) (sources : List Text) :
    List.Forall₂ holds sources (c.compileEach sources) := by
  rw [compileEach_eq_map, List.forall₂_map_right_iff, List.forall₂_same]
  intro source _
  exact h source _ ((Compiler.new c.verify).compile_ends source)

end Compiler

/-- The stage that an error's message begins with. -/
def SourceError.stage : SourceError → Text
  | .lex _ => utf8 "lex: "
  | .parse _ => utf8 "parse: "

theorem SourceError.message_eq (e : SourceError) : e.message = e.stage ++ e.reason := by
  cases e <;> rfl

theorem parseSource_of_lexError {source : Text} {e : LexError} (h : lex source = .error e) :
    parseSource source = .error (.lex e) := by
  simp only [parseSource, h]

theorem parseSource_of_parseError {source : Text} {tokens : List Token} {e : ParseError} (hlex : lex source = .ok tokens)
    (h : parseProgram tokens = .error e) : parseSource source = .error (.parse e) := by
  rw [parseSource_of_lex hlex, h]
  rfl

theorem parseSource_of_parse {source : Text} {tokens : List Token} {p : Program} (hlex : lex source = .ok tokens)
    (h : parseProgram tokens = .ok p) : parseSource source = .ok p := by
  rw [parseSource_of_lex hlex, h]
  rfl

namespace Compiler

/-- A compilation shows what the one-shot pipeline makes of the source. -/
structure Mirrors (source : Text) (step : CompileResult × Compiler) : Prop where
  blank : source.trim = [] → step.1.success = false ∧ step.1.error = utf8 "source code is required"
  success : source.trim ≠ [] → ∀ code,
    step.1.success = true ∧ step.1.code = code ∧ step.2.code = code ↔ EnglishScript.compile source = .ok code
  error : source.trim ≠ [] → ∀ e, EnglishScript.compile source = .error e → e.message = e.stage ++ step.1.error
  failure : step.1.success = false →
    step.1.errors = [step.1.error] ∧ step.2.errors = [step.1.error] ∧ step.1.code = [] ∧ step.2.code = []
  tokens : source.trim ≠ [] → ∀ tokens, lex source = .ok tokens →
    step.2.tokensDisplay = (tokens.filter fun t => t.kind ≠ .newline ∧ t.kind ≠ .eof).map Token.display
  noTokens : ∀ e, lex source = .error e → step.2.tokensDisplay = []

theorem tokensDisplay_eq (c : Compiler) :
    c.tokensDisplay = (c.tokens.filter fun t => t.kind ≠ .newline ∧ t.kind ≠ .eof).map Token.display := by
  simp only [tokensDisplay, tokenLines, Bool.decide_and]

theorem mirrors_fail {source : Text} {c : Compiler} {e : SourceError} (hvisible : source.trim ≠ [])
    (hsource : parseSource source = .error e) (hcode : c.code = []) (herrors : c.errors = [])
    (htokens : ∀ tokens, lex source = .ok tokens → c.tokens = tokens) (hnone : ∀ e, lex source = .error e → c.tokens = []) :
    Mirrors source (c.fail (.source e)) where
  blank hblank := absurd hblank hvisible
  success _ code := by
    rw [compile_of_unparsed hsource]
    constructor
    · rintro ⟨hsuccess, _⟩
      cases hsuccess
    · intro hok
      cases hok
  error _ e' he' := by
    cases (compile_of_unparsed hsource).symm.trans he'
    exact e.message_eq
  failure _ := by
    simp only [fail, herrors, List.nil_append, hcode, and_self]
  tokens _ tokens hlex := by
    rw [tokensDisplay_eq, fail, htokens tokens hlex]
  noTokens e hlex := by
    rw [tokensDisplay, fail, hnone e hlex]
    rfl

theorem mirrors_blank {source : Text} (hblank : source.trim = []) :
    Mirrors source ((Compiler.new false).fail .emptySource) where
  blank _ := ⟨rfl, rfl⟩
  success hvisible := absurd hblank hvisible
  error hvisible := absurd hblank hvisible
  failure _ := ⟨rfl, rfl, rfl, rfl⟩
  tokens hvisible := absurd hblank hvisible
  noTokens _ _ := rfl

theorem mirrors_succeed {source : Text} {tokens : List Token} {p : Program} (hvisible : source.trim ≠ [])
    (hlex : lex source = .ok tokens) (hparse : parseSource source = .ok p) :
    Mirrors source (succeed ⟨false, tokens, some p, [], []⟩ (Program.python p)) where
  blank hblank := absurd hblank hvisible
  success _ code := by
    rw [compile_of_parsed hparse]
    exact ⟨fun h => congrArg Except.ok h.2.1, fun h => ⟨rfl, Except.ok.inj h, Except.ok.inj h⟩⟩
  error _ e he := by cases (compile_of_parsed hparse).symm.trans he
  failure hfailure := by cases hfailure
  tokens _ others hothers := by
    cases hlex.symm.trans hothers
    rw [tokensDisplay_eq, succeed]
  noTokens e he := by cases hlex.symm.trans he

theorem Ends.mirrors [Python.Checker] {source : Text} {step : CompileResult × Compiler} (h : Ends false source step) :
    Mirrors source step := by
  cases h with
  | blank hblank => exact mirrors_blank hblank
  | lexing hvisible hlex =>
    refine mirrors_fail hvisible (parseSource_of_lexError hlex) rfl rfl ?_ (fun _ _ => rfl)
    intro tokens htokens
    cases hlex.symm.trans htokens
  | parsing hvisible hlex hparse =>
    refine mirrors_fail hvisible (parseSource_of_parseError hlex hparse) rfl rfl ?_ ?_
    · intro tokens htokens
      cases hlex.symm.trans htokens
      rfl
    · intro e he
      cases hlex.symm.trans he
  | refused _ _ _ hverify _ => cases hverify
  | success hvisible hlex hparse _ => exact mirrors_succeed hvisible hlex (parseSource_of_parse hlex hparse)

/-- Sources given to a compiler that does not check its output come out as from a new compiler each, and as from the
one-shot pipeline. -/
theorem compileEach_mirrors [Python.Checker] (sources : List Text) :
    (Compiler.new false).compileEach sources = sources.map (Compiler.new false).compile ∧
      List.Forall₂ Mirrors sources ((Compiler.new false).compileEach sources) :=
  ⟨compileEach_eq_map _ sources, compileEach_forall _ (fun _ _ h => h.mirrors) sources⟩

/-- The source is not blank and has this program. -/
def Yields (source : Text) (p : Program) : Prop :=
  source.trim ≠ [] ∧ parseSource source = .ok p

/-- The program's text is checked, and the checker refuses it. -/
def Refused [Python.Checker] (verify : Bool) (p : Program) : Prop :=
  verify = true ∧ ∃ e, Python.Checker.verdict (Program.python p) = .error e

theorem Yields.eq {source : Text} {p q : Program} (hp : Yields source p) (hq : Yields source q) : p = q :=
  Except.ok.inj (hp.2.symm.trans hq.2)

/-- What a compilation leaves: everything of a success, and of a failure no code. A tree is left of a failure exactly if
its text was refused. -/
structure Leaves [Python.Checker] (verify : Bool) (source : Text) (step : CompileResult × Compiler) : Prop where
  succeeds : step.1.success = true ↔ ∃ p, Yields source p ∧ ¬Refused verify p
  success : step.1.success = true → step.2.errors = [] ∧
    ∃ p, parseSource source = .ok p ∧ step.2.program = some p ∧ step.2.code = Program.python p ∧
      step.1.code = Program.python p
  failure : step.1.success = false → step.2.code = []
  noTree : step.1.success = false → (∀ p, Yields source p → ¬Refused verify p) →
    step.2.program = none ∧ step.2.astDisplay = [utf8 "No AST generated"]
  tree : ∀ p, Yields source p → Refused verify p →
    step.2.program = some p ∧ step.2.astDisplay = summaryFrom 1 p

theorem leaves_fail [Python.Checker] {verify : Bool} {source : Text} {tokens : List Token} (e : CompileError)
    (hnone : ∀ p, ¬Yields source p) : Leaves verify source (fail ⟨verify, tokens, none, [], []⟩ e) where
  succeeds := by
    constructor
    · intro h
      cases h
    · rintro ⟨p, hp, _⟩
      exact absurd hp (hnone p)
  success h := by cases h
  failure _ := rfl
  noTree _ _ := ⟨rfl, rfl⟩
  tree p hp := absurd hp (hnone p)

theorem leaves_refused [Python.Checker] {verify : Bool} {source : Text} {tokens : List Token} {p : Program}
    {e : Python.Invalid} (hp : Yields source p) (hrefused : Refused verify p) :
    Leaves verify source (fail ⟨verify, tokens, some p, [], []⟩ (.python e)) where
  succeeds := by
    constructor
    · intro h
      cases h
    · rintro ⟨q, hq, haccepted⟩
      cases hp.eq hq
      exact absurd hrefused haccepted
  success h := by cases h
  failure _ := rfl
  noTree _ hnever := absurd hrefused (hnever p hp)
  tree q hq _ := by
    cases hp.eq hq
    exact ⟨rfl, rfl⟩

theorem leaves_succeed [Python.Checker] {verify : Bool} {source : Text} {tokens : List Token} {p : Program}
    (hp : Yields source p) (haccepted : ¬Refused verify p) :
    Leaves verify source (succeed ⟨verify, tokens, some p, [], []⟩ (Program.python p)) where
  succeeds := ⟨fun _ => ⟨p, hp, haccepted⟩, fun _ => rfl⟩
  success _ := ⟨rfl, p, hp.2, rfl, rfl, rfl⟩
  failure h := by cases h
  noTree h := by cases h
  tree q hq hrefused := by
    cases hp.eq hq
    exact absurd hrefused haccepted

theorem Ends.leaves [Python.Checker] {verify : Bool} {source : Text} {step : CompileResult × Compiler}
    (h : Ends verify source step) : Leaves verify source step := by
  cases h with
  | blank hblank => exact leaves_fail _ fun p hp => hp.1 hblank
  | lexing hvisible hlex =>
    refine leaves_fail _ ?_
    rintro p ⟨_, hp⟩
    cases (parseSource_of_lexError hlex).symm.trans hp
  | parsing hvisible hlex hparse =>
    refine leaves_fail _ ?_
    rintro p ⟨_, hp⟩
    cases (parseSource_of_parseError hlex hparse).symm.trans hp
  | refused hvisible hlex hparse hverify hcheck =>
    exact leaves_refused ⟨hvisible, parseSource_of_parse hlex hparse⟩ ⟨hverify, _, hcheck⟩
  | success hvisible hlex hparse hcheck =>
    refine leaves_succeed ⟨hvisible, parseSource_of_parse hlex hparse⟩ ?_
    rintro ⟨hverify, e, he⟩
    obtain ⟨count, hcount⟩ := hcheck hverify
    cases he.symm.trans hcount

/-- Whatever sources a compiler is given, whether it checks its output or not and whatever the checker refuses, it keeps
code, tree and no errors of a success; of a failure it keeps no code, and no tree unless the checker refused the text. -/
theorem compileEach_leaves [Python.Checker] (verify : Bool) (sources : List Text) :
    List.Forall₂ (Leaves verify) sources ((Compiler.new verify).compileEach sources) :=
  compileEach_forall (Compiler.new verify) (fun _ _ h => h.leaves) sources

/-- The tree of a failed compilation that is still there: a variable has the name of a word of Python. -/
theorem refused_tree_left :
    let step := (Compiler.new true).compile (utf8 "CREATE VARIABLE class WITH VALUE 1")
    step.1.success = false ∧ step.2.program.isSome = true ∧
      step.2.astDisplay = [utf8 "Statement 1: (create class 1)"] := by
  decide +kernel

end Compiler

end EnglishScript
