import EnglishScript.Proofs.LineJoin

namespace EnglishScript

namespace Text

/-- The text with a carriage return put before every line feed. -/
def withReturns (s : Text) : Text :=
  s.flatMap fun b => if b = lf then [cr, lf] else [b]

theorem withReturns_unbroken {s : Text} (h : lf ∉ s) : s.withReturns = s := by
  unfold withReturns
  induction s with
  | nil => rfl
  | cons b rest ih =>
    obtain ⟨hb, hrest⟩ := not_or.mp (mt List.mem_cons.mpr h)
    rw [List.flatMap_cons, if_neg (Ne.symm hb), ih hrest]
    rfl

theorem withReturns_line {a : Text} (h : lf ∉ a) (b : Text) :
    (a ++ lf :: b).withReturns = (a ++ [cr]) ++ lf :: b.withReturns := by
  have ha := withReturns_unbroken h
  unfold withReturns at ha ⊢
  rw [List.flatMap_append, ha, List.flatMap_cons, if_pos rfl, List.append_assoc]
  rfl

/-- A text is one line, or a line in front of a text. -/
theorem line_induction {P : Text → Prop} (last : ∀ s, lf ∉ s → P s)
    (line : ∀ a b, lf ∉ a → P b → P (a ++ lf :: b)) (s : Text) : P s := by
  have hall : ∀ a, lf ∉ a → P (a ++ s) := by
    induction s with
    | nil =>
      intro a ha
      rw [List.append_nil]
      exact last a ha
    | cons c rest ih =>
      intro a ha
      by_cases hc : c = lf
      · subst hc
        exact line a rest ha (ih [] List.not_mem_nil)
      · have hmore : lf ∉ a ++ [c] := by simpa using ⟨ha, Ne.symm hc⟩
        simpa using ih (a ++ [c]) hmore
  exact hall [] List.not_mem_nil

end Text

/-- The token behind a carriage return, if it is a newline token. -/
def Token.behindReturn (t : Token) : Token :=
  if t.kind = .newline then { t with pos := ⟨t.pos.line, t.pos.column + 1⟩ } else t

theorem Token.behindReturn_line (t : Token) : t.behindReturn.pos.line = t.pos.line := by
  unfold Token.behindReturn
  split <;> rfl

theorem Token.behindReturn_down (n : Int) (t : Token) : (t.down n).behindReturn = t.behindReturn.down n := by
  unfold Token.behindReturn
  by_cases h : t.kind = .newline
  · rw [if_pos h, if_pos (show (t.down n).kind = .newline from h)]
    rfl
  · rw [if_neg h, if_neg (show (t.down n).kind ≠ .newline from h)]

theorem moves_behindReturn : Moves Token.behindReturn := by
  constructor <;> intro t <;> unfold Token.behindReturn <;> split <;> rfl

theorem lexedDown_behindReturn (n : Int) (r : Except LexError (List Token)) :
    lexedDown n (r.map (List.map Token.behindReturn)) = (lexedDown n r).map (List.map Token.behindReturn) := by
  cases r with
  | error e => rfl
  | ok tokens => simp only [Except.map, lexedDown, List.map_map, Function.comp_def, Token.behindReturn_down]

theorem endAt_inj {ts us : List Token} {q r : Position} (h : ts ++ [Token.endAt q] = us ++ [Token.endAt r]) :
    ts = us ∧ q = r := by
  obtain ⟨hts, hend⟩ := List.append_inj' h rfl
  exact ⟨hts, congrArg Token.pos (List.cons.inj hend).1⟩

namespace Lexer

theorem severs_cr : Severs [Text.cr] :=
  severs_cons (bounds_cons rfl rfl []) (by decide) (by decide) rfl

theorem newline_of_piece {c : UInt8} {rest lexeme : Text} {width : Nat}
    (h : piece c rest = .token .newline lexeme width) : c = Text.lf := by
  have hlexeme : lexeme = [Text.lf] := piece_spelled h
  have hbytes : c :: rest.take width = lexeme := (piece_fits h).2.2 .start
  exact (List.cons.inj (hbytes.trans hlexeme)).1

theorem tokensFrom_unbroken {skip : Nat} {p : Position} {s : Text} : ∀ {tokens : List Token},
    tokensFrom skip p s = .ok tokens → Text.lf ∉ s → ∀ t ∈ tokens, t.kind ≠ .newline := by
  fun_induction tokensFrom skip p s with
  | case1 skip p =>
    intro tokens h _ t ht
    cases Except.ok.inj h
    rw [List.mem_singleton.mp ht]
    simp [Token.endAt]
  | case2 p skip c rest ih =>
    intro tokens h hs
    exact ih h fun hmem => hs (List.mem_cons_of_mem _ hmem)
  | case3 p c rest hpiece ih =>
    intro tokens h hs
    exact ih h fun hmem => hs (List.mem_cons_of_mem _ hmem)
  | case4 p c rest kind lexeme width hpiece ih =>
    intro tokens h hs t ht
    cases hrest : tokensFrom width (p.advance (c :: rest.take width)) rest with
    | error e => rw [hrest] at h; cases h
    | ok more =>
      rw [hrest] at h
      cases Except.ok.inj h
      rcases List.mem_cons.mp ht with rfl | ht
      · rintro rfl
        exact hs (by rw [newline_of_piece hpiece]; exact List.mem_cons_self)
      · exact ih hrest (fun hmem => hs (List.mem_cons_of_mem _ hmem)) t ht
  | case5 p c rest char hpiece =>
    intro tokens h
    cases h
  | case6 p c rest hpiece =>
    intro tokens h
    cases h

end Lexer

/-- A text of one line has no newline token that could stand behind a carriage return. -/
theorem lex_unbroken {s : Text} {tokens : List Token} (hs : Text.lf ∉ s) (h : lex s = .ok tokens) :
    tokens.map Token.behindReturn = tokens := by
  refine (List.map_congr_left fun t ht => ?_).trans (List.map_id tokens)
  exact if_neg (Lexer.tokensFrom_unbroken h hs t ht)

/-- A carriage return at the end of a text moves its end by one column. -/
theorem lex_return {a : Text} {ts : List Token} {q : Position} (h : lex a = .ok (ts ++ [Token.endAt q])) :
    lex (a ++ [Text.cr]) = .ok (ts ++ [Token.endAt ⟨q.line, q.column + 1⟩]) := by
  obtain ⟨us, r, htokens, _, _, hjoined⟩ := Lexer.tokensFrom_append_ok Lexer.severs_cr.toBounds Lexer.severs_cr.point h
    (Nat.zero_le _)
  obtain ⟨rfl, rfl⟩ := endAt_inj htokens
  exact hjoined

/-- With carriage returns every newline token is one column further to the right, and all else is the same, errors
included. -/
theorem lex_withReturns (s : Text) : lex s.withReturns = (lex s).map (List.map Token.behindReturn) := by
  induction s using Text.line_induction with
  | last s hs =>
    rw [Text.withReturns_unbroken hs]
    cases h : lex s with
    | error e => rfl
    | ok tokens => exact congrArg Except.ok (lex_unbroken hs h).symm
  | line a b ha ih =>
    rw [Text.withReturns_line ha]
    cases h : lex a with
    | error e =>
      have hreturn : lex (a ++ [Text.cr]) = .error e := Lexer.tokensFrom_append_error Lexer.severs_cr h (Nat.zero_le _)
      rw [lex_line_error h, lex_line_error hreturn]
      rfl
    | ok tokens =>
      obtain ⟨ts, q, rfl, _, hjoined⟩ := lex_line h b
      obtain ⟨us, r, heq, _, hreturned⟩ := lex_line (lex_return h) b.withReturns
      obtain ⟨rfl, rfl⟩ := endAt_inj heq
      have hline : ts.map Token.behindReturn = ts := by
        have htokens := lex_unbroken ha h
        rw [List.map_append] at htokens
        exact (List.append_inj' htokens rfl).1
      have hfeeds : (a ++ [Text.cr]).lineFeeds = a.lineFeeds := by
        rw [Text.lineFeeds, List.count_append]
        rfl
      rw [hreturned, hjoined, hfeeds, ih, lexedDown_behindReturn]
      cases lexedDown (1 + a.lineFeeds) (lex b) with
      | error e => rfl
      | ok more =>
        simp only [Except.map, List.map_append, List.map_cons, hline]
        rfl

theorem ParseError.message_behindReturn (e : ParseError) : (e.relabel Token.behindReturn).message = e.message := by
  cases e <;>
    simp only [ParseError.relabel, ParseError.message, moves_behindReturn.kind, moves_behindReturn.lexeme,
      Token.behindReturn_line]

theorem parseSource_withReturns (s : Text) :
    parseSource s.withReturns = match parseSource s with
      | .ok p => .ok (relabelBlock Token.behindReturn p)
      | .error (.lex e) => .error (.lex e)
      | .error (.parse e) => .error (.parse (e.relabel Token.behindReturn)) := by
  unfold parseSource
  rw [lex_withReturns]
  cases h : lex s with
  | error e => rfl
  | ok tokens =>
    obtain ⟨ts, q, rfl, hts⟩ := lex_endless h
    simp only [Except.map, List.map_append, List.map_singleton]
    rw [parseProgram_relabel moves_behindReturn.relabels hts rfl]
    cases parseProgram (ts ++ [Token.endAt q]) <;> rfl

/-- A carriage return before every line feed of a source changes neither its tokens, but for the columns of the newline
tokens, nor the error of the lexer, nor the Python text or the message of a failed compilation. -/
theorem lex_compile_withReturns (s : Text) :
    lex s.withReturns = (lex s).map (List.map Token.behindReturn) ∧
      (compile s.withReturns).mapError SourceError.message = (compile s).mapError SourceError.message := by
  refine ⟨lex_withReturns s, ?_⟩
  unfold compile
  rw [parseSource_withReturns]
  cases parseSource s with
  | ok p =>
    simp only [Except.map, Except.mapError, Program.python_eq, moves_behindReturn.python_block]
  | error e =>
    cases e with
    | lex e => rfl
    | parse e =>
      simp only [Except.map, Except.mapError, SourceError.message, ParseError.message_behindReturn]

end EnglishScript
