import Mathlib.Data.List.Forall2
import EnglishScript.Proofs.LineJoin

namespace EnglishScript

/-- Whether tokens of the kind are told apart by their lexemes. -/
def Kind.isOpen : Kind → Bool
  | .identifier | .number | .string => true
  | _ => false

/-- Two tokens are the same word: they have the same kind, and the same lexeme if they are names, numbers or strings. -/
structure Token.SameWord (t u : Token) : Prop where
  kind : t.kind = u.kind
  lexeme : t.kind.isOpen = true → t.lexeme = u.lexeme

instance (t u : Token) : Decidable (t.SameWord u) :=
  decidable_of_iff (t.kind = u.kind ∧ (t.kind.isOpen = true → t.lexeme = u.lexeme))
    ⟨fun h => ⟨h.1, h.2⟩, fun h => ⟨h.kind, h.lexeme⟩⟩

/-- The same complaint about the same word. -/
def ParseError.Agrees : ParseError → ParseError → Prop
  | .unexpected expected got, .unexpected expected' got' => expected = expected' ∧ got.SameWord got'
  | .invalidNumber token cause, .invalidNumber token' cause' => token.SameWord token' ∧ cause = cause'
  | _, _ => False

/-- The sign of an operator of arithmetic. -/
def Kind.sign : Kind → Text
  | .plus => utf8 "+"
  | .minus => utf8 "-"
  | .multiply => utf8 "*"
  | .divide => utf8 "/"
  | _ => []

/-- The token at no place, with the one lexeme that all tokens of the same word share. -/
def Token.word (t : Token) : Token :=
  ⟨t.kind, if t.kind.isOpen then t.lexeme else t.kind.sign, ⟨0, 0⟩⟩

theorem Token.word_eq_iff {t u : Token} : t.word = u.word ↔ t.SameWord u := by
  simp only [Token.word, Token.mk.injEq, and_true]
  constructor
  · rintro ⟨hkind, hlexeme⟩
    refine ⟨hkind, fun hopen => ?_⟩
    rwa [← hkind, if_pos hopen, if_pos hopen] at hlexeme
  · intro h
    refine ⟨h.kind, ?_⟩
    rw [← h.kind]
    by_cases hopen : t.kind.isOpen = true
    · rw [if_pos hopen, if_pos hopen, h.lexeme hopen]
    · rw [if_neg hopen, if_neg hopen]

theorem map_word_eq {ts us : List Token} (h : List.Forall₂ Token.SameWord ts us) :
    ts.map Token.word = us.map Token.word := by
  induction h with
  | nil => rfl
  | cons hword _ ih => rw [List.map_cons, List.map_cons, Token.word_eq_iff.mpr hword, ih]

theorem ParseError.agrees_of_relabel {e e' : ParseError} (h : e.relabel Token.word = e'.relabel Token.word) :
    e.Agrees e' := by
  cases e with
  | unexpected expected got =>
    cases e' with
    | unexpected expected' got' =>
      obtain ⟨hexpected, hgot⟩ := ParseError.unexpected.inj h
      exact ⟨hexpected, Token.word_eq_iff.mp hgot⟩
    | invalidNumber token' cause' => cases h
  | invalidNumber token cause =>
    cases e' with
    | unexpected expected' got' => cases h
    | invalidNumber token' cause' =>
      obtain ⟨htoken, hcause⟩ := ParseError.invalidNumber.inj h
      exact ⟨Token.word_eq_iff.mp htoken, hcause⟩

theorem relabels_word : Relabels Token.word where
  kind _ := rfl
  number t hk := by simp [Token.word, Kind.isOpen, hk]
  string t hk := by simp [Token.word, Kind.isOpen, hk]

theorem Token.Is.word_name {t : Token} (h : t.Is .identifier) : t.word.lexeme = t.lexeme := by
  simp [Token.word, Kind.isOpen, h.1]

theorem Token.Is.word_sign {op : Token} {kind : Kind} (hk : kind ∈ Form.arithmetic.operators) (h : op.Is kind) :
    op.word.lexeme = op.lexeme := by
  obtain ⟨hkind, hspelled⟩ := h
  simp only [Form.operators, List.mem_cons, List.not_mem_nil, or_false] at hk
  rcases hk with rfl | rfl | rfl | rfl <;> simp only [Token.word, hkind] <;> exact hspelled.symm

theorem Token.Is.word_symbol {form : Form} {op : Token} {kind : Kind} (hk : kind ∈ form.operators) (h : op.Is kind) :
    form.symbol op.word = form.symbol op := by
  cases form with
  | arithmetic => exact h.word_sign hk
  | comparison =>
    have hkind : op.kind = kind := h.1
    have hword : op.word.kind = kind := hkind
    simp only [Form.operators, List.mem_cons, List.not_mem_nil, or_false] at hk
    rcases hk with rfl | rfl | rfl | rfl <;> simp only [Form.symbol, hkind, hword]
  | logic => rfl

theorem Node.Sourced.keeps_word {n : Node} (h : n.Sourced) : n.Keeps Token.word := by
  cases n with
  | program p => trivial
  | stmt s =>
    cases s with
    | create name value => exact h.1.word_name
    | assign name value => exact h.1.word_name
    | _ => trivial
  | expr e =>
    cases e with
    | var name => exact Token.Is.word_name h
    | operation form left op right =>
      obtain ⟨_, ⟨kind, hk, hop⟩, _⟩ := h
      exact hop.word_symbol hk
    | _ => trivial

theorem BlockSourced.bare_word {p : Program} (h : BlockSourced p) :
    bareBlock (relabelBlock Token.word p) = bareBlock p :=
  bareBlock_relabel relabels_word.kind fun _ hn => (h.node (List.mem_cons_of_mem _ hn)).keeps_word

theorem parseProgram_word {source : Text} {tokens : List Token} (h : lex source = .ok tokens) :
    parseProgram (tokens.map Token.word) = relabelled Token.word (relabelBlock Token.word) (parseProgram tokens) := by
  obtain ⟨ts, q, rfl, hts⟩ := lex_endless h
  rw [List.map_append, List.map_singleton, parseProgram_relabel relabels_word hts rfl]

section SameWords

variable {a b : Text} {ts us : List Token} (ha : lex a = .ok ts) (hb : lex b = .ok us)
  (h : List.Forall₂ Token.SameWord ts us)
include ha hb h

/-- Sources of the same words have programs with the same normal form, or none of them has a program. -/
theorem parseSource_same_words :
    (∃ p q, parseSource a = .ok p ∧ parseSource b = .ok q ∧ Program.bare p = Program.bare q) ∨
      ∃ e e', parseSource a = .error (.parse e) ∧ parseSource b = .error (.parse e') ∧ e.Agrees e' := by
  have hparse : relabelled Token.word (relabelBlock Token.word) (parseProgram ts) =
      relabelled Token.word (relabelBlock Token.word) (parseProgram us) := by
    rw [← parseProgram_word ha, ← parseProgram_word hb, map_word_eq h]
  have hpa := parseSource_of_lex ha
  have hpb := parseSource_of_lex hb
  cases hp : parseProgram ts with
  | ok p =>
    cases hq : parseProgram us with
    | ok q =>
      rw [hp] at hpa
      rw [hq] at hpb
      rw [hp, hq] at hparse
      have hword : relabelBlock Token.word p = relabelBlock Token.word q := Except.ok.inj hparse
      refine Or.inl ⟨p, q, hpa, hpb, ?_⟩
      rw [Program.bare, Program.bare, ← (parseSource_sourced hpa).bare_word, hword, (parseSource_sourced hpb).bare_word]
    | error e' =>
      rw [hp, hq] at hparse
      cases hparse
  | error e =>
    cases hq : parseProgram us with
    | ok q =>
      rw [hp, hq] at hparse
      cases hparse
    | error e' =>
      rw [hp] at hpa
      rw [hq] at hpb
      rw [hp, hq] at hparse
      exact Or.inr ⟨e, e', hpa, hpb, ParseError.agrees_of_relabel (Except.error.inj hparse)⟩

/-- Sources of the same words have the same Python text, or fail at the same word for the same reason. Their programs print
the same, leave the same variables and end with the same error up to its place, from all variables and with every step
limit; where none stops them, they come to the horizon together. -/
theorem compile_same_words :
    ((∃ code, compile a = .ok code ∧ compile b = .ok code) ∨
      ∃ e e', compile a = .error (.parse e) ∧ compile b = .error (.parse e') ∧ e.Agrees e') ∧
    ∀ p q, parseSource a = .ok p → parseSource b = .ok q → ∀ (ev : Evaluator) (ctx : Context),
      (ev.run ctx p).stdout = (ev.run ctx q).stdout ∧ (ev.run ctx p).evaluator.env = (ev.run ctx q).evaluator.env ∧
      (ev.run ctx p).error.map RunError.placeless = (ev.run ctx q).error.map RunError.placeless := by
  rcases parseSource_same_words ha hb h with ⟨p, q, hp, hq, hbare⟩ | ⟨e, e', he, he', hagrees⟩
  · have hpython : Program.python p = Program.python q := by
      rw [Program.python_eq, Program.python_eq, ← pythonBlock_bare, ← pythonBlock_bare 0 q]
      exact congrArg (fun r => Text.unlines Python.header ++ Text.unlines (pythonBlock 0 r)) hbare
    refine ⟨Or.inl ⟨Program.python p, compile_of_parsed hp, hpython ▸ compile_of_parsed hq⟩, ?_⟩
    intro p' q' hp' hq' ev ctx
    cases hp.symm.trans hp'
    cases hq.symm.trans hq'
    have hrun : (ev.run ctx p).placeless = (ev.run ctx q).placeless := by
      rw [← ev.run_bare ctx p, hbare, ev.run_bare ctx q]
    obtain ⟨hevaluator, hstdout, herror⟩ := Evaluator.Outcome.mk.inj hrun
    exact ⟨hstdout, congrArg Evaluator.env hevaluator, herror⟩
  · refine ⟨Or.inr ⟨e, e', compile_of_unparsed he, compile_of_unparsed he', hagrees⟩, ?_⟩
    intro p q hp
    cases he.symm.trans hp

end SameWords

/-- One program in two layouts, with its keywords and its comparison in other letters. -/
theorem compile_same_words_respelled :
    let a := utf8 "IF x is less than 2 THEN\nPRINT \"A\" * (x+0.5)\nEND IF"
    let b := utf8 "  if\tx  IS Less   THAN 2 then\r\n print \"A\"*( x + 0.5 ) \nEnd if"
    ∃ ts us, lex a = .ok ts ∧ lex b = .ok us ∧ List.Forall₂ Token.SameWord ts us ∧ ts ≠ us ∧
      ∃ code, compile a = .ok code ∧ compile b = .ok code := by
  intro a b
  have hwords : ((lex a).toOption.bind fun ts => (lex b).toOption.map fun us =>
      decide (List.Forall₂ Token.SameWord ts us ∧ ts ≠ us)) = some true := by decide +kernel
  have hcode : (compile a).toOption.isSome = true := by decide +kernel
  cases ha : lex a with
  | error e => simp [ha, Except.toOption] at hwords
  | ok ts =>
    cases hb : lex b with
    | error e => simp [ha, hb, Except.toOption] at hwords
    | ok us =>
      simp only [ha, hb, Except.toOption, Option.bind_some, Option.map_some, Option.some.injEq,
        decide_eq_true_eq] at hwords
      refine ⟨ts, us, rfl, rfl, hwords.1, hwords.2, ?_⟩
      rcases (compile_same_words ha hb hwords.1).1 with hsame | ⟨e, e', he, _⟩
      · exact hsame
      · rw [he] at hcode
        cases hcode

end EnglishScript
