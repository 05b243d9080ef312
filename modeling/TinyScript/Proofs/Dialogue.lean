import TinyScript.CommandLine
import TinyScript.Proofs.Grammar.Completeness
import TinyScript.Proofs.Grammar.Sequence
import TinyScript.Proofs.Lexing.Finished
import TinyScript.Proofs.Storage

/-!
# A file and a dialogue

Lines that are programs of their own, each with a semicolon at its end, can be given to the dialogue
one after another or be run as one file. The file stops where the dialogue goes on: at the first
line that fails or returns. Up to there both do the same, and what the file comes to is what the
dialogue answers to that line (`Session.file_as_dialogue`).

There are two halves to the reason. The text of the file has the words of its lines one after
another, and so their programs (`Program.parse_lines`); and a program that is put together from programs
runs as these run one after another (`Session.run_lines`).
-/

namespace TinyScript

/-- A line that is a program without mistakes and ends in a semicolon. -/
structure IsLine (line : String) : Prop where
  unbroken : '\n' ∉ line.toList
  noMistakes : (Program.parse line).2 = []
  semicolon : (Cursor.start line).tokens.getLast?.map Token.kind = some (.symbol .semicolon)

instance (line : String) : Decidable (IsLine line) :=
  decidable_of_iff ('\n' ∉ line.toList ∧ (Program.parse line).2 = [] ∧
      (Cursor.start line).tokens.getLast?.map Token.kind = some (.symbol .semicolon))
    ⟨fun h => ⟨h.1, h.2.1, h.2.2⟩, fun h => ⟨h.unbroken, h.noMistakes, h.semicolon⟩⟩

def Program.ofText (text : String) : Program := (Program.parse text).1

namespace Session

/-- The statements of the program end early, by a failure or by a return of their own. -/
def stops (s : Session) (p : Program) : Bool :=
  (Block.eval (apply maxCallDepth) s.scope p .null s.heap).1.isInterrupt

def GoesOn (s : Session) : List Program → Prop
  | [] => True
  | p :: ps => s.stops p = false ∧ (s.run p).2.GoesOn ps

end Session

namespace Repl

def input (lines : List String) : List UInt8 :=
  lines.flatMap fun line => (line ++ "\n").toUTF8.data.toList

end Repl

namespace Session

/-- `line` is the first of the lines that stops, if there is one, and else the last; `done` are the
lines before it. -/
structure FirstStop (lines done : List String) (line : String) : Prop where
  goesOn : start.GoesOn (done.map Program.ofText)
  split : ∃ rest, lines = done ++ line :: rest ∧
    ((start.after (done.map Program.ofText)).stops (Program.ofText line) = true ∨ rest = [])

/-- The file `source` and the dialogue at the line `line`, after the lines `done`: both come to `v`
in the session `after`, and `out` is what is printed. -/
structure Agree (source : String) (done : List String) (line : String) (v : Value)
    (after : Session) (out : String) : Prop where
  noMistakes : (Program.parse source).2 = []
  file : start.runText source = (.ok v, after)
  text : (start.after (done.map Program.ofText)).runText line = (.ok v, after)
  reply : Repl.reply (start.after (done.map Program.ofText)) (line ++ "\n") = .stay out after
  transcript : ∃ shown,
    Repl.transcript (Repl.input done) = ⟨shown ++ Repl.prompt ++ "\n", false⟩ ∧
    Repl.transcript (Repl.input (done ++ [line])) =
      ⟨shown ++ Repl.prompt ++ out ++ Repl.prompt ++ "\n", false⟩
  failure : ∀ n fault, v = .error n fault →
    out = "[ERROR] " ++ fault.message ++ "\n" ∧
      CommandLine.runText source = ⟨1, "", ["Error: Runtime Error: " ++ fault.message]⟩
  success : v.isError = false →
    CommandLine.runText source = ⟨0, out, []⟩ ∧
      out = if v = .null then "" else after.heap.display v ++ "\n"

end Session

-- ---------------------------------------------------------------------------
-- One text
-- ---------------------------------------------------------------------------

theorem Program.parse_words {source : String} (h : Grammar.Statements (words source.toList) p) :
    Program.parse source = (p, []) := Grammar.statements_complete h _ rfl

namespace IsLine

variable {line : String}

theorem parse (h : IsLine line) : Program.parse line = (Program.ofText line, []) :=
  Prod.ext rfl h.noMistakes

theorem finished (h : IsLine line) : Lexing.Finished line.toList := by
  have hlast := h.semicolon
  rw [Option.map_eq_some_iff] at hlast
  obtain ⟨t, ht, hk⟩ := hlast
  rw [Lexing.Finished, words, List.getLast?_map]
  exact Option.map_eq_some_iff.mpr ⟨t, ht, Grammar.terminal_symbol.mpr hk⟩

theorem statements (h : IsLine line) :
    Grammar.Statements (words line.toList) (Program.ofText line) :=
  Grammar.statements_sound _ _ h.noMistakes

theorem ofText_ne_nil (h : IsLine line) : Program.ofText line ≠ [] := by
  intro hnil
  have hwords := h.finished
  rw [Lexing.Finished, h.statements.eq_nil.mpr hnil] at hwords
  cases hwords

theorem parse_trim (h : IsLine line) :
    Program.parse (trim (line ++ "\n")) = (Program.ofText line, []) ∧
      (trim (line ++ "\n")).toList.getLast? = some ';' := by
  have hwords : words (line ++ "\n").toList = words line.toList := by
    have hbreak : words "\n".toList = [] := (Lexing.words_blank rfl).trans Lexing.words_nil
    rw [String.toList_append, h.finished.words_append, hbreak, List.append_nil]
  have hhead : (words (line ++ "\n").toList).head? ≠ some .foreign := by
    intro hforeign
    rw [hwords] at hforeign
    exact Grammar.not_begins_foreign (h.statements.head _ hforeign)
  have hfinished : Lexing.Finished (line ++ "\n").toList := by
    rw [Lexing.Finished, hwords]
    exact h.finished
  obtain ⟨htrim, hlast⟩ := hfinished.trim hhead
  refine ⟨Program.parse_words ?_, hlast⟩
  rw [htrim, hwords]
  exact h.statements

end IsLine

theorem Program.parse_lines {lines : List String} (hlines : ∀ line ∈ lines, IsLine line) :
    Program.parse ("\n".intercalate lines) = (lines.flatMap Program.ofText, []) := by
  refine Program.parse_words ?_
  induction lines with
  | nil => exact Lexing.words_nil ▸ .nil
  | cons line lines ih =>
    obtain ⟨hline, hlines⟩ := List.forall_mem_cons.mp hlines
    cases lines with
    | nil =>
      rw [String.intercalate_singleton, List.flatMap_singleton]
      exact hline.statements
    | cons next lines =>
      have hshape : ("\n".intercalate (line :: next :: lines)).toList =
          line.toList ++ '\n' :: ("\n".intercalate (next :: lines)).toList := by
        rw [String.intercalate_cons_cons]
        simp
      rw [hshape, hline.finished.words_append, Lexing.words_blank rfl, List.flatMap_cons]
      exact hline.statements.append hline.finished (ih hlines)

-- ---------------------------------------------------------------------------
-- Programs one after another
-- ---------------------------------------------------------------------------

theorem Block.eval_append {call : Caller} {scope : ScopeId} {p q : List Stmt} {last : Value}
    {h : Heap} (hlast : last.isInterrupt = false) :
    Block.eval call scope (p ++ q) last h =
      andThen (Block.eval call scope p last h) fun v h => Block.eval call scope q v h := by
  induction p generalizing last h with
  | nil =>
    rw [List.nil_append, Block.eval, andThen, hlast]
    rfl
  | cons s p ih =>
    rw [List.cons_append, Block.eval, Block.eval]
    obtain ⟨v, h⟩ := s.eval call scope h
    by_cases hv : v.isInterrupt = true
    · simp [andThen, hv]
    · simp [andThen, hv, ih (Bool.eq_false_iff.mpr hv)]

namespace Session

variable {s : Session} {p q : Program}

theorem run_eq (s : Session) (p : Program) :
    s.run p = ((Block.eval (apply maxCallDepth) s.scope p .null s.heap).1.unwrap,
      { s with heap := (Block.eval (apply maxCallDepth) s.scope p .null s.heap).2 }) := rfl

theorem run_stops (h : s.stops p = true) (q : Program) : s.run (p ++ q) = s.run p := by
  rw [run_eq, run_eq, Block.eval_append rfl, andThen]
  rw [stops] at h
  simp only [h, if_true]

theorem run_goesOn (h : s.stops p = false) (hq : q ≠ []) :
    s.run (p ++ q) = (s.run p).2.run q := by
  obtain ⟨st, q, rfl⟩ := List.exists_cons_of_ne_nil hq
  rw [run_eq, Block.eval_append rfl, andThen]
  rw [stops] at h
  simp only [h, Bool.false_eq_true, if_false]
  rfl

theorem exists_last (s : Session) {lines : List String} (hne : lines ≠ []) :
    ∃ done line rest, lines = done ++ line :: rest ∧ s.GoesOn (done.map Program.ofText) ∧
      ((s.after (done.map Program.ofText)).stops (Program.ofText line) = true ∨ rest = []) := by
  induction lines generalizing s with
  | nil => exact absurd rfl hne
  | cons line lines ih =>
    by_cases hlast : s.stops (Program.ofText line) = true ∨ lines = []
    · exact ⟨[], line, lines, rfl, trivial, hlast⟩
    · obtain ⟨hgoes, hlines⟩ := not_or.mp hlast
      obtain ⟨done, last, rest, rfl, hdone, hend⟩ := ih (s.run (Program.ofText line)).2 hlines
      exact ⟨line :: done, last, rest, rfl, ⟨Bool.eq_false_iff.mpr hgoes, hdone⟩, hend⟩

/-- What comes after the line that stops is not run, and what comes before is run as it is in the
dialogue. -/
theorem run_lines (s : Session) {done : List String} {line : String} {rest : List String}
    (hlines : ∀ l ∈ done ++ line :: rest, IsLine l) (hdone : s.GoesOn (done.map Program.ofText))
    (hend : (s.after (done.map Program.ofText)).stops (Program.ofText line) = true ∨ rest = []) :
    s.run ((done ++ line :: rest).flatMap Program.ofText) =
      (s.after (done.map Program.ofText)).run (Program.ofText line) := by
  induction done generalizing s with
  | nil =>
    rw [List.nil_append, List.flatMap_cons]
    rcases hend with hstops | rfl
    · exact run_stops hstops _
    · rw [List.flatMap_nil, List.append_nil]
      rfl
  | cons l done ih =>
    obtain ⟨hl, hlines⟩ := List.forall_mem_cons.mp hlines
    rw [List.cons_append, List.flatMap_cons, run_goesOn hdone.1 ?_]
    · exact ih _ hlines hdone.2 hend
    · intro hnil
      have hline := hlines line (by simp)
      exact hline.ofText_ne_nil (List.flatMap_eq_nil_iff.mp hnil line (by simp))

theorem runText_of_parse {text : String} (h : Program.parse text = (p, [])) :
    s.runText text = (.ok (s.run p).1, (s.run p).2) := by
  rw [runText, h]

end Session

-- ---------------------------------------------------------------------------
-- Bytes
-- ---------------------------------------------------------------------------

namespace Repl

theorem decode?_toUTF8 (text : String) : decode? text.toUTF8.data.toList = some text := by
  rw [decode?, Array.toArray_toList]
  exact dif_pos text.isValidUTF8

theorem encoded_lineFeed (h : 10 ∈ String.utf8EncodeChar c) : c = '\n' := by
  have hvalue : c.val.toNat = 10 := by
    unfold String.utf8EncodeChar at h
    dsimp only at h
    split at h
    · have hb := congrArg UInt8.toNat (List.mem_singleton.mp h)
      have hten : (10 : UInt8).toNat = 10 := rfl
      rw [hten, UInt8.toNat_ofNat'] at hb
      omega
    · -- all other bytes are 128 at least
      exfalso
      repeat' split at h
      all_goals
        simp only [List.mem_cons, List.not_mem_nil, or_false, ← UInt8.toNat_inj,
          UInt8.toNat_ofNat', show (10 : UInt8).toNat = 10 from rfl] at h
        omega
  exact Char.ext (UInt32.toNat_inj.mp hvalue)

theorem lines_cons {bytes : List UInt8} (h : 10 ∉ bytes) (rest : List UInt8) :
    lines (bytes ++ 10 :: rest) = (bytes ++ [10]) :: lines rest := by
  induction bytes with
  | nil => rfl
  | cons b bytes ih =>
    obtain ⟨hb, hbytes⟩ := not_or.mp (List.mem_cons.not.mp h)
    rw [List.cons_append, lines, if_neg (Ne.symm hb), ih hbytes]
    rfl

theorem lines_input {ls : List String} (h : ∀ line ∈ ls, '\n' ∉ line.toList) :
    lines (input ls) = ls.map fun line => (line ++ "\n").toUTF8.data.toList := by
  induction ls with
  | nil => rfl
  | cons line ls ih =>
    obtain ⟨hline, hls⟩ := List.forall_mem_cons.mp h
    have hbytes : (line ++ "\n").toUTF8.data.toList =
        line.toList.flatMap String.utf8EncodeChar ++ [10] := by
      rw [Lexing.toList_toUTF8, String.toList_append, List.flatMap_append]
      rfl
    have hnone : 10 ∉ line.toList.flatMap String.utf8EncodeChar := by
      intro hmem
      obtain ⟨c, hc, hten⟩ := List.mem_flatMap.mp hmem
      exact hline (encoded_lineFeed hten ▸ hc)
    rw [input, List.flatMap_cons, List.map_cons, hbytes, List.append_assoc, List.singleton_append,
      lines_cons hnone]
    exact congrArg _ (ih hls)

-- ---------------------------------------------------------------------------
-- The dialogue
-- ---------------------------------------------------------------------------

theorem reply_line {line : String} (h : IsLine line) (s : Session) :
    reply s (line ++ "\n") =
      .stay (resultText (s.run (Program.ofText line)).2.heap (s.run (Program.ofText line)).1)
        (s.run (Program.ofText line)).2 := by
  obtain ⟨hparse, hlast⟩ := h.parse_trim
  have hempty : (trim (line ++ "\n")).isEmpty = false := by
    refine Bool.eq_false_iff.mpr fun hempty => ?_
    rw [String.isEmpty_iff.mp hempty] at hlast
    exact nomatch hlast
  have hleave : ¬ (trim (line ++ "\n") = "exit" ∨ trim (line ++ "\n") = "q") := by
    rintro (heq | heq) <;> exact absurd (heq ▸ hlast) (by decide)
  simp only [reply, hempty, if_neg hleave, Session.runText_of_parse hparse]
  rfl

theorem converse_lines (s : Session) {ls : List String} (h : ∀ line ∈ ls, IsLine line) :
    ∃ shown, ∀ more, converse s ((ls.map fun line => (line ++ "\n").toUTF8.data.toList) ++ more) =
      ⟨shown ++ (converse (s.after (ls.map Program.ofText)) more).output,
        (converse (s.after (ls.map Program.ofText)) more).failed⟩ := by
  induction ls generalizing s with
  | nil => exact ⟨"", fun more => by simp [Session.after]⟩
  | cons line ls ih =>
    obtain ⟨hline, hls⟩ := List.forall_mem_cons.mp h
    obtain ⟨shown, hshown⟩ := ih (s.run (Program.ofText line)).2 hls
    refine ⟨prompt ++ resultText (s.run (Program.ofText line)).2.heap
      (s.run (Program.ofText line)).1 ++ shown, fun more => ?_⟩
    rw [List.map_cons, List.cons_append, converse, decode?_toUTF8]
    simp only [reply_line hline, hshown more, List.map_cons, Session.after, List.foldl_cons,
      String.append_assoc]

theorem transcript_line {done : List String} {line : String} (hdone : ∀ l ∈ done, IsLine l)
    (hline : IsLine line)
    (hr : (Session.start.after (done.map Program.ofText)).run (Program.ofText line) = (v, after)) :
    ∃ shown, transcript (input done) = ⟨shown ++ prompt ++ "\n", false⟩ ∧
      transcript (input (done ++ [line])) =
        ⟨shown ++ prompt ++ resultText after.heap v ++ prompt ++ "\n", false⟩ := by
  obtain ⟨shown, hshown⟩ := converse_lines .start hdone
  have hnone := hshown []
  rw [List.append_nil] at hnone
  have hreply := reply_line hline (Session.start.after (done.map Program.ofText))
  rw [hr] at hreply
  have hall : ∀ l ∈ done ++ [line], IsLine l := fun l hl =>
    (List.mem_append.mp hl).elim (hdone l) fun hl => List.mem_singleton.mp hl ▸ hline
  refine ⟨shown, ?_, ?_⟩
  · rw [transcript, lines_input fun l hl => (hdone l hl).unbroken, hnone, converse,
      String.append_assoc]
  · rw [transcript, lines_input fun l hl => (hall l hl).unbroken, List.map_append, hshown]
    simp only [List.map_cons, List.map_nil, converse, decode?_toUTF8, hreply, String.append_assoc]

end Repl

namespace Session

/-- Lines given to the dialogue one after another, and the same lines as one file. Among them there
is a first one that stops, or else the last is meant. The file comes to the result of that line and
leaves the same session, and it prints what the dialogue prints there; the message of a failure is
the same. -/
theorem file_as_dialogue (lines : List String) (hne : lines ≠ [])
    (hlines : ∀ line ∈ lines, IsLine line) :
    ∃ done line v after out, FirstStop lines done line ∧
      Agree ("\n".intercalate lines) done line v after out := by
  obtain ⟨done, line, rest, rfl, hdone, hend⟩ := start.exists_last hne
  have hline : IsLine line := hlines line (by simp)
  have hsome : ∀ l ∈ done, IsLine l := fun l hl => hlines l (List.mem_append_left _ hl)
  have hsource := Program.parse_lines hlines
  have hfile := runText_of_parse (s := start) hsource
  have htext := runText_of_parse (s := start.after (done.map Program.ofText)) hline.parse
  have hreply := Repl.reply_line hline (start.after (done.map Program.ofText))
  rw [start.run_lines hlines hdone hend] at hfile
  rcases hr : (start.after (done.map Program.ofText)).run (Program.ofText line) with ⟨v, after⟩
  rw [hr] at hfile htext hreply
  refine ⟨done, line, v, after, Repl.resultText after.heap v, ⟨hdone, rest, rfl, hend⟩, ?_⟩
  refine ⟨congrArg Prod.snd hsource, hfile, htext, hreply, Repl.transcript_line hsome hline hr,
    ?_, fun hv => ⟨?_, ?_⟩⟩
  · rintro n fault rfl
    refine ⟨?_, by rw [CommandLine.runText, hfile]⟩
    rw [Repl.resultText, Heap.display, Heap.textIn]
    rintro ⟨⟩
  · rw [CommandLine.runText, hfile]
    cases v <;> first | rfl | cases hv
  · cases v <;> simp [Repl.resultText]

/-- With a function that fails in the third of four lines. -/
theorem file_as_dialogue_sample :
    let lines :=
      ["val f = func(x) \x7b x / 0; \x7d;", "var y = [1, \"a;\"]; y;", " f(2);\r", "y = 3;"]
    (∀ line ∈ lines, IsLine line) ∧ ∃ done line v after out, FirstStop lines done line ∧
      Agree ("\n".intercalate lines) done line v after out := by
  intro lines
  have hlines : ∀ line ∈ lines, IsLine line := by decide +kernel
  exact ⟨hlines, file_as_dialogue lines (List.cons_ne_nil _ _) hlines⟩

end Session

end TinyScript
