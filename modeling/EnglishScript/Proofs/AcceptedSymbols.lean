import EnglishScript.Proofs.GeneratedLines
import EnglishScript.Proofs.Refusal

namespace EnglishScript

open Python

/-- The lexis of an operator that is written as `symbol`. -/
def Form.written (form : Form) (symbol : Text) : Lexis :=
  match form with
  | .logic => .keyword symbol
  | _ => .sign symbol

/-- The lexis of an operator. -/
def Form.lexis (form : Form) (op : Token) : Lexis :=
  form.written (form.symbol op)

/-- The symbols of an expression: every operation has its own parentheses. -/
def Expr.lexes : Expr → List Lexis
  | .number _ _ => [.number]
  | .string _ _ => [.string]
  | .var name => [.name name.lexeme]
  | .operation form left op right => mark "(" :: (left.lexes ++ form.lexis op :: (right.lexes ++ [mark ")"]))
  | .hole => []

/-- The words that the checker takes for keywords are among those kept for Python. -/
theorem keywords_reserved : ∀ t ∈ keywords, t ∈ reserved := by
  decide

theorem checkName_accepted {name : Token} (h : checkName name = none) :
    Scan.wordLexis name.lexeme = .name name.lexeme := by
  have hreserved : name.lexeme ∉ reserved := by
    rcases checkName_cases name with ⟨hname, _⟩ | ⟨_, hcheck⟩
    · exact hname
    · rw [h] at hcheck
      cases hcheck
  have hkeyword : name.lexeme ∉ keywords := fun hmem => hreserved (keywords_reserved _ hmem)
  simp [Scan.wordLexis, hkeyword]

theorem literal_accepted {t : Token} {value : Text} (h : (Node.expr (.string t value)).Accepted) :
    Literal.escapesEnd value = false ∧ Scan.literal ⟨Text.quote, false, false⟩ value = .string := by
  unfold Node.Accepted Node.refusal? Evaluation.literal at h
  cases hend : Literal.escapesEnd value with
  | true => simp [hend] at h
  | false =>
    refine ⟨rfl, ?_⟩
    cases hdecode : Decoder.decode value with
    | error e => simp [hend, hdecode] at h
    | ok text => simp [Scan.literal, show Literal.decode false value = .ok text from hdecode]

namespace Python.Scan

/-- The part of a line in front of `rest` has the symbols `ls`, behind which `change` more brackets are open. -/
abbrev Gives (ls : List Lexis) (t rest : Text) (change : Int) : Prop :=
  Passes (fun front => front.map (·.lexis) = ls) t rest change

theorem Passes.gives {lexis : Lexis} {t rest : Text} {change : Int}
    (h : Passes (fun front => ∃ s, front = [s] ∧ s.lexis = lexis) t rest change) : Gives [lexis] t rest change := by
  refine h.imp ?_
  rintro _ ⟨s, rfl, rfl⟩
  rfl

theorem gives_append {ls ms : List Lexis} {t u rest : Text} {a b : Int} (ht : Gives ls t (u ++ rest) a)
    (hu : Gives ms u rest b) : Gives (ls ++ ms) (t ++ u) rest (a + b) := by
  refine (Passes.append ht hu).imp ?_
  rintro _ ⟨f, g, rfl, rfl, rfl⟩
  exact List.map_append

theorem gives_space (rest : Text) : Gives [] (utf8 " ") rest 0 :=
  (passes_space rest).imp (by rintro _ rfl; rfl)

theorem gives_operator {form : Form} {op : Token} {kind : Kind} (hk : kind ∈ form.operators) (hop : op.Is kind)
    (rest : Text) : Gives [form.lexis op] (form.symbol op) (utf8 " " ++ rest) 0 := by
  have hmem := ReadBack.symbol_mem_operators hk hop
  unfold Form.lexis Form.written
  generalize form.symbol op = t at hmem
  simp only [ReadBack.operators, List.mem_cons, List.not_mem_nil, or_false, Prod.mk.injEq] at hmem
  have word {t : Text} (ht : t.IsName) (hkeyword : wordLexis t = .keyword t) :
      Gives [.keyword t] t (utf8 " " ++ rest) 0 := by
    have hpasses := passes_word ht (stops_space rest)
    rw [hkeyword] at hpasses
    exact hpasses.gives
  rcases hmem with ⟨rfl, rfl, _⟩ | ⟨rfl, rfl, _⟩ | ⟨rfl, rfl, _⟩ | ⟨rfl, rfl, _⟩ | ⟨rfl, rfl, _⟩ | ⟨rfl, rfl, _⟩ |
    ⟨rfl, rfl, _⟩ | ⟨rfl, rfl, _⟩ | ⟨rfl, rfl, _⟩ | ⟨rfl, rfl, _⟩
  · exact (passes_sign (c := 43) (t := []) rfl rfl).gives
  · exact (passes_sign (c := 45) (t := []) rfl rfl).gives
  · exact (passes_sign (c := 42) (t := []) rfl rfl).gives
  · exact (passes_sign (c := 47) (t := []) rfl rfl).gives
  · exact (passes_sign (c := 62) (t := []) rfl rfl).gives
  · exact (passes_sign (c := 60) (t := []) rfl rfl).gives
  · exact (passes_sign (c := 61) (t := [61]) rfl rfl).gives
  · exact (passes_sign (c := 33) (t := [61]) rfl rfl).gives
  · exact word ⟨97, [110, 100], rfl, rfl, List.all_eq_true.mp rfl⟩ rfl
  · exact word ⟨111, [114], rfl, rfl, List.all_eq_true.mp rfl⟩ rfl

end Python.Scan

open Scan

/-- The text of an expression in which nothing is refused gives its symbols. -/
theorem Expr.Sourced.gives {e : Expr} (h : e.Sourced) (haccepted : ∀ n ∈ e.walk, n.Accepted) :
    ∀ {rest : Text}, Stops rest → Gives e.lexes e.python rest 0 := by
  induction e with
  | number t value =>
    intro rest hrest
    obtain ⟨b, hread, hpos⟩ := Text.IsNumeral.reading h.1.2 h.2
    have htext := isText_pythonFloat hread hpos
    obtain ⟨d, more, hmore, hd⟩ := htext.first
    rw [Expr.python, Expr.lexes]
    rw [hmore] at htext ⊢
    exact (passes_symbol (piece_number hd htext hrest) rfl).gives
  | string t value =>
    intro rest hrest
    have hquote := h.2 ▸ h.1.quote_not_mem
    obtain ⟨hend, hliteral⟩ := literal_accepted (haccepted (.expr (.string t value)) (by simp [Expr.walk]))
    have hpiece := piece_literal hquote hend hrest
    rw [hliteral] at hpiece
    rw [Expr.python, List.append_assoc, List.singleton_append]
    exact (passes_symbol hpiece rfl).gives
  | var t =>
    intro rest hrest
    have hname := checkName_accepted (haccepted (.expr (.var t)) (by simp [Expr.walk]))
    have hpasses := passes_word h.2.1 hrest
    rw [hname] at hpasses
    exact hpasses.gives
  | operation form left op right ihl ihr =>
    intro rest hrest
    obtain ⟨hl, ⟨kind, hk, hop⟩, hr⟩ := h
    simp only [Expr.walk, List.mem_cons, List.mem_append] at haccepted
    have hleft (more : Text) := ihl hl (fun n hn => haccepted n (Or.inr (Or.inl hn))) (stops_space more)
    have hright := ihr hr (fun n hn => haccepted n (Or.inr (Or.inr hn))) (stops_close rest)
    have hback := gives_append (gives_space _) (gives_append hright (passes_close rest).gives)
    have hoperator : Gives [form.lexis op] (form.symbol op) (utf8 " " ++ (right.python ++ utf8 ")") ++ rest) 0 := by
      simpa only [List.append_assoc] using gives_operator hk hop (right.python ++ (utf8 ")" ++ rest))
    have hmiddle := gives_append (gives_space _) (gives_append hoperator hback)
    have hfront : Gives left.lexes left.python
        (utf8 " " ++ (form.symbol op ++ (utf8 " " ++ (right.python ++ utf8 ")"))) ++ rest) 0 := by
      simpa only [List.append_assoc] using hleft (form.symbol op ++ (utf8 " " ++ (right.python ++ (utf8 ")" ++ rest))))
    have hwhole := gives_append (passes_open _).gives (gives_append hfront hmiddle)
    simpa only [Expr.python, Expr.lexes, List.append_assoc, List.nil_append, List.singleton_append, Int.zero_add,
      Int.add_right_neg] using hwhole
  | hole => exact h.elim

namespace Python

/-- A line with the symbols `ls` at the depth of its block: they are followed by one end of line. -/
theorem linesAt_gives {ls : List Lexis} {t : Text} (ht : Headed t) (h : Gives ls t [] 0) (depth number : Nat)
    (rest : List Text) : ∃ front z, front.map (·.lexis) = ls ∧ z.lexis = .newline ∧
      linesAt depth number (Python.line depth t :: rest) = front ++ z :: linesAt depth (number + 1) rest := by
  obtain ⟨here, spot, heq⟩ := linesAt_same ht depth number rest
  obtain ⟨front, there, hfront, hline⟩ := h here 0
  rw [List.append_nil, Int.add_zero] at hline
  refine ⟨front, ⟨.newline, spot⟩, hfront, rfl, ?_⟩
  rw [heq, hline]
  simp [Line.after, restOfLine, Scan.close]

theorem gives_assign {name : Token} {value : Expr} (hname : name.Is .identifier) (hcheck : checkName name = none)
    (hvalue : value.Sourced) (haccepted : ∀ n ∈ value.walk, n.Accepted) :
    Gives (.name name.lexeme :: mark "=" :: value.lexes) (name.lexeme ++ utf8 " = " ++ value.python) [] 0 := by
  have hleft : Gives [.name name.lexeme, mark "="] (name.lexeme ++ utf8 " = ") (value.python ++ []) 0 := by
    refine (passes_assign hname.2.1 _).imp ?_
    rintro _ ⟨s, equals, rfl, hs, hequals⟩
    rw [checkName_accepted hcheck] at hs
    simp only [List.map_cons, hs, hequals, List.map_nil]
  exact gives_append hleft (hvalue.gives haccepted stops_nil)

theorem gives_print {value : Expr} (hvalue : value.Sourced) (haccepted : ∀ n ∈ value.walk, n.Accepted) :
    Gives (.name (utf8 "print") :: mark "(" :: (value.lexes ++ [mark ")"]))
      (utf8 "print(" ++ value.python ++ utf8 ")") [] 0 := by
  have hword : (utf8 "print").IsName := ⟨112, [114, 105, 110, 116], rfl, rfl, List.all_eq_true.mp rfl⟩
  have hvalue := gives_append (hvalue.gives haccepted (stops_close [])) (passes_close []).gives
  have hopen : Gives [mark "("] (utf8 "(") (value.python ++ utf8 ")" ++ []) 1 := (passes_open _).gives
  have hstops : Stops (utf8 "(" ++ (value.python ++ utf8 ")") ++ []) := stops_open _
  have hwhole := gives_append (passes_word hword hstops).gives (gives_append hopen hvalue)
  have htext : utf8 "print(" ++ value.python ++ utf8 ")" =
      utf8 "print" ++ (utf8 "(" ++ (value.python ++ utf8 ")")) := by
    rw [List.append_assoc]
    rfl
  rw [htext]
  exact hwhole

theorem gives_head {word : Text} (hword : word.IsName) (hkeyword : wordLexis word = .keyword word) {cond : Expr}
    (hcond : cond.Sourced) (haccepted : ∀ n ∈ cond.walk, n.Accepted) :
    Gives (.keyword word :: (cond.lexes ++ [mark ":"])) (word ++ utf8 " " ++ cond.python ++ utf8 ":") [] 0 := by
  have hfront := passes_word hword (stops_space (cond.python ++ (utf8 ":" ++ [])))
  rw [hkeyword] at hfront
  have hspace := gives_append hfront.gives (gives_space _)
  have hback := gives_append (hcond.gives haccepted (stops_colon [])) (passes_colon []).gives
  rw [← List.append_assoc] at hspace
  have hwhole := gives_append hspace hback
  simpa [← List.append_assoc] using hwhole

theorem gives_if {cond : Expr} (hcond : cond.Sourced) (haccepted : ∀ n ∈ cond.walk, n.Accepted) :
    Gives (word "if" :: (cond.lexes ++ [mark ":"])) (utf8 "if " ++ cond.python ++ utf8 ":") [] 0 :=
  gives_head ⟨105, [102], rfl, rfl, List.all_eq_true.mp rfl⟩ rfl hcond haccepted

theorem gives_while {cond : Expr} (hcond : cond.Sourced) (haccepted : ∀ n ∈ cond.walk, n.Accepted) :
    Gives (word "while" :: (cond.lexes ++ [mark ":"])) (utf8 "while " ++ cond.python ++ utf8 ":") [] 0 :=
  gives_head ⟨119, [104, 105, 108, 101], rfl, rfl, List.all_eq_true.mp rfl⟩ rfl hcond haccepted

theorem gives_pass : Gives [word "pass"] (utf8 "pass") [] 0 :=
  (passes_word ⟨112, [97, 115, 115], rfl, rfl, List.all_eq_true.mp rfl⟩ stops_nil).gives

theorem gives_else : Gives [word "else", mark ":"] (utf8 "else:") [] 0 :=
  gives_append (t := utf8 "else")
    (passes_word ⟨101, [108, 115, 101], rfl, rfl, List.all_eq_true.mp rfl⟩ (stops_colon [])).gives
    (passes_colon []).gives

end Python

end EnglishScript
