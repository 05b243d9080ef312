import TinyScript.Repl

/-!
# Lines and their answers

What a line is does not depend on the dialogue that it stands in, and the dialogue is the fold of
its lines: the answer to a line is its own and that of the session which the earlier lines left.
Blank lines and lines with mistakes leave the session alone, so they can come and go without a trace
in the other answers (`Repl.transcript_fold`).
-/

namespace TinyScript

namespace Repl

structure IsCut (input : List UInt8) (ls : List (List UInt8)) : Prop where
  whole : ls.flatten = input
  unbroken : ∀ line ∈ ls, line ≠ [] ∧ 10 ∉ line.dropLast
  ended : ∀ line ∈ ls.dropLast, line.getLast? = some 10

/-- What a line is, in any dialogue. -/
inductive Line where
  | unreadable
  | leave
  | blank
  | mistaken (errors : List SyntaxError)
  | program (p : Program)

structure Answer where
  line : Line
  output : String
  session : Session

namespace Line

def ofBytes (bytes : List UInt8) : Line :=
  match decode? bytes with
  | none => unreadable
  | some text =>
    if trim text = "" then blank
    else if trim text = "exit" ∨ trim text = "q" then leave
    else
      match Program.parse (trim text) with
      | (p, []) => program p
      | (_, errors) => mistaken errors

def isLast : Line → Bool
  | unreadable | leave => true
  | _ => false

def isIdle : Line → Bool
  | blank | mistaken _ => true
  | _ => false

def answer (s : Session) (line : Line) : Answer :=
  match line with
  | mistaken errors => ⟨line, mistakesText errors, s⟩
  | program p => ⟨line, resultText (s.run p).2.heap (s.run p).1, (s.run p).2⟩
  | _ => ⟨line, "", s⟩

end Line

def answers (s : Session) : List Line → List Answer
  | [] => []
  | l :: ls => l.answer s :: answers (l.answer s).session ls

def after (s : Session) (ls : List Line) : Session := ls.foldl (fun s l => (l.answer s).session) s

def linesOf (input : List UInt8) : List Line := (lines input).map Line.ofBytes

def heard (ls : List Line) : List Line := ls.takeWhile fun l => !l.isLast

def answered (input : List UInt8) : List Answer := answers .start (heard (linesOf input))

/-- What is written behind the last prompt, and how it ends. -/
def ending : Option Line → Transcript
  | none => ⟨"\n", false⟩
  | some .unreadable => ⟨"", true⟩
  | some _ => ⟨"", false⟩

def active (ls : List Line) : List Line := ls.filter fun l => !l.isIdle

-- ---------------------------------------------------------------------------
-- Lines
-- ---------------------------------------------------------------------------

theorem lines_cut (input : List UInt8) : IsCut input (lines input) := by
  fun_induction lines input with
  | case1 => exact ⟨rfl, nofun, nofun⟩
  | case2 rest ih =>
    refine ⟨congrArg _ ih.whole, List.forall_mem_cons.mpr ⟨by simp, ih.unbroken⟩, ?_⟩
    cases hrest : lines rest with
    | nil => exact nofun
    | cons line more =>
      have hended := ih.ended
      rw [hrest] at hended
      exact List.forall_mem_cons.mpr ⟨rfl, hended⟩
  | case3 b rest hb hrest ih =>
    refine ⟨?_, ?_, nofun⟩
    · have hnil := ih.whole
      rw [hrest] at hnil
      rw [← hnil]
      rfl
    · simp
  | case4 b rest hb line more hrest ih =>
    rw [hrest] at ih
    obtain ⟨⟨hne, hnone⟩, hmore⟩ := List.forall_mem_cons.mp ih.unbroken
    refine ⟨congrArg (b :: ·) ih.whole, List.forall_mem_cons.mpr ⟨⟨?_, ?_⟩, hmore⟩, ?_⟩
    · simp
    · rw [List.dropLast_cons_of_ne_nil hne]
      simp [Ne.symm hb, hnone]
    · have hended := ih.ended
      cases more with
      | nil => exact nofun
      | cons next more =>
        obtain ⟨hline, hmore⟩ := List.forall_mem_cons.mp hended
        refine List.forall_mem_cons.mpr ⟨?_, hmore⟩
        rw [List.getLast?_cons, hline]
        rfl

theorem lines_append {front : List UInt8} (h : front = [] ∨ front.getLast? = some 10)
    (back : List UInt8) : lines (front ++ back) = lines front ++ lines back := by
  induction front with
  | nil => rfl
  | cons b front ih =>
    have hlast : front.getLast?.getD b = 10 := by simpa [List.getLast?_cons] using h
    have hfront : front = [] ∨ front.getLast? = some 10 := by
      cases hf : front.getLast? with
      | none => exact .inl (List.getLast?_eq_none_iff.mp hf)
      | some c =>
        rw [hf] at hlast
        exact .inr (congrArg _ hlast)
    rw [List.cons_append, lines, lines, ih hfront]
    split
    · rfl
    · rename_i hb
      have hne : lines front ≠ [] := by
        intro hnil
        have hwhole := (lines_cut front).whole
        rw [hnil] at hwhole
        exact hb (by simpa [← hwhole] using hlast)
      obtain ⟨line, more, hlines⟩ := List.exists_cons_of_ne_nil hne
      rw [hlines]
      rfl

theorem linesOf_append {front : List UInt8} (h : front = [] ∨ front.getLast? = some 10)
    (back : List UInt8) : linesOf (front ++ back) = linesOf front ++ linesOf back := by
  rw [linesOf, lines_append h, List.map_append, linesOf, linesOf]

-- ---------------------------------------------------------------------------
-- Answers
-- ---------------------------------------------------------------------------

theorem heard_last {l : Line} (h : l.isLast = true) (ls : List Line) : heard (l :: ls) = [] :=
  List.takeWhile_cons_of_neg (by simp [h])

theorem heard_cons {l : Line} (h : l.isLast = false) (ls : List Line) :
    heard (l :: ls) = l :: heard ls := List.takeWhile_cons_of_pos (by simp [h])

theorem converse_cons (s : Session) (bytes : List UInt8) (rest : List (List UInt8)) :
    converse s (bytes :: rest) =
      let line := Line.ofBytes bytes
      if line.isLast then
        ⟨prompt ++ (ending (some line)).output, (ending (some line)).failed⟩
      else
        let later := converse (line.answer s).session rest
        ⟨prompt ++ (line.answer s).output ++ later.output, later.failed⟩ := by
  rw [converse, Line.ofBytes]
  cases decode? bytes with
  | none => rfl
  | some text =>
    simp only [reply, Session.runText]
    by_cases hblank : trim text = ""
    · simp [hblank, Line.answer, Line.isLast]
    · have hempty : (trim text).isEmpty = false :=
        Bool.eq_false_iff.mpr fun h => hblank (String.isEmpty_iff.mp h)
      rw [hempty, if_neg hblank]
      by_cases hleave : trim text = "exit" ∨ trim text = "q"
      · simp [hleave, ending, Line.isLast]
      · rw [if_neg hleave, if_neg hleave]
        rcases Program.parse (trim text) with ⟨p, _ | ⟨e, errors⟩⟩ <;> rfl

/-- A dialogue from any session on: the prompt and the answer for each line that is heard, and then
the prompt for the line that ends it or for the end of the input. -/
theorem converse_fold (s : Session) (ls : List (List UInt8)) :
    converse s ls =
      let last := (ls.map Line.ofBytes).find? Line.isLast
      ⟨String.join ((answers s (heard (ls.map Line.ofBytes))).map fun a => prompt ++ a.output) ++
        prompt ++ (ending last).output, (ending last).failed⟩ := by
  induction ls generalizing s with
  | nil => rfl
  | cons bytes rest ih =>
    rw [converse_cons, List.map_cons]
    cases hlast : (Line.ofBytes bytes).isLast with
    | true => simp [hlast, heard_last, answers]
    | false =>
      rw [heard_cons hlast, List.find?_cons_of_neg (by simp [hlast]), answers, List.map_cons,
        String.join_cons]
      simp [hlast, ih, String.append_assoc]

theorem answers_getElem? (s : Session) (ls : List Line) (k : Nat) :
    (answers s ls)[k]? = ls[k]?.map (Line.answer (after s (ls.take k))) := by
  induction ls generalizing s k with
  | nil => rfl
  | cons l ls ih =>
    cases k with
    | zero => rfl
    | succ k => exact ih (l.answer s).session k

-- ---------------------------------------------------------------------------
-- Idle lines
-- ---------------------------------------------------------------------------

theorem Line.answer_idle {l : Line} (h : l.isIdle = true) (s : Session) :
    (l.answer s).session = s := by
  cases l with
  | blank | mistaken => rfl
  | _ => exact nomatch h

theorem Line.not_isLast_of_isIdle {l : Line} (h : l.isIdle = true) : l.isLast = false := by
  cases l with
  | blank | mistaken => rfl
  | _ => exact nomatch h

theorem Line.answer_line (l : Line) (s : Session) : (l.answer s).line = l := by
  cases l <;> rfl

theorem active_idle {l : Line} (h : l.isIdle = true) (ls : List Line) :
    active (l :: ls) = active ls := List.filter_cons_of_neg (by simp [h])

theorem active_cons {l : Line} (h : l.isIdle = false) (ls : List Line) :
    active (l :: ls) = l :: active ls := List.filter_cons_of_pos (by simp [h])

theorem active_append (ls more : List Line) : active (ls ++ more) = active ls ++ active more :=
  List.filter_append ls more

theorem filter_answers (s : Session) (ls : List Line) :
    (answers s ls).filter (fun a => !a.line.isIdle) = answers s (active ls) := by
  induction ls generalizing s with
  | nil => rfl
  | cons l ls ih =>
    have hline := l.answer_line s
    cases h : l.isIdle with
    | true =>
      rw [active_idle h, ← ih s, answers, Line.answer_idle h, List.filter_cons_of_neg]
      simp [hline, h]
    | false =>
      rw [active_cons h, answers, answers, ← ih, List.filter_cons_of_pos]
      simp [hline, h]

theorem after_active (s : Session) (ls : List Line) : after s (active ls) = after s ls := by
  induction ls generalizing s with
  | nil => rfl
  | cons l ls ih =>
    cases h : l.isIdle with
    | true =>
      rw [active_idle h, ih, after, after, List.foldl_cons, Line.answer_idle h]
    | false =>
      rw [active_cons h]
      exact ih (l.answer s).session

theorem active_heard (ls : List Line) : active (heard ls) = heard (active ls) := by
  induction ls with
  | nil => rfl
  | cons l ls ih =>
    cases hidle : l.isIdle with
    | true =>
      rw [heard_cons (Line.not_isLast_of_isIdle hidle), active_idle hidle, active_idle hidle, ih]
    | false =>
      rw [active_cons hidle]
      cases hlast : l.isLast with
      | true =>
        rw [heard_last hlast, heard_last hlast]
        rfl
      | false => rw [heard_cons hlast, heard_cons hlast, active_cons hidle, ih]

theorem find?_active (ls : List Line) : (active ls).find? Line.isLast = ls.find? Line.isLast := by
  rw [active, List.find?_filter]
  congr 1
  funext l
  cases l <;> rfl

theorem answers_sublist {ls more : List Line} (h : ls.Sublist more)
    (hactive : active ls = active more) (s : Session) :
    (answers s (heard ls)).Sublist (answers s (heard more)) := by
  induction h generalizing s with
  | slnil => exact .slnil
  | @cons ls more l h ih =>
    cases hidle : l.isIdle with
    | true =>
      rw [active_idle hidle] at hactive
      rw [heard_cons (Line.not_isLast_of_isIdle hidle), answers, Line.answer_idle hidle]
      exact (ih hactive s).cons _
    | false =>
      -- A line that is active is not left out: the active ones would not be as many.
      have hle : (active ls).length ≤ (active more).length := (h.filter _).length_le
      rw [hactive, active_cons hidle, List.length_cons] at hle
      exact absurd hle (Nat.not_succ_le_self _)
  | @cons_cons ls more l h ih =>
    have htail : active ls = active more := by
      cases hidle : l.isIdle with
      | true => rwa [active_idle hidle, active_idle hidle] at hactive
      | false =>
        rw [active_cons hidle, active_cons hidle] at hactive
        exact (List.cons.inj hactive).2
    cases hlast : l.isLast with
    | true => simp only [heard_last hlast, answers, List.Sublist.refl]
    | false =>
      rw [heard_cons hlast, heard_cons hlast, answers, answers]
      exact (ih htail _).cons_cons _

/-- An input is cut behind its line feeds. Its dialogue is a prompt with an answer for each line up
to the first that is `exit`, `q` or not UTF-8, and one more prompt for that line or for the end of
the input. Each answer is that of the line in the session which the lines before it left. Inputs
with the same lines, idle ones aside, have the same answers to all lines that are not idle, with the
same sessions after them, and end in the same session and the same way; and if idle lines are only
left out, all answers that remain are the same. Idle lines can be put between any two lines. -/
theorem transcript_fold :
    (∀ input, IsCut input (lines input)) ∧
    (∀ input, transcript input =
      let last := (linesOf input).find? Line.isLast
      ⟨String.join ((answered input).map fun a => prompt ++ a.output) ++ prompt ++
        (ending last).output, (ending last).failed⟩) ∧
    (∀ (input : List UInt8) (k : Nat), (answered input)[k]? =
      (heard (linesOf input))[k]?.map
        (Line.answer (after .start ((heard (linesOf input)).take k)))) ∧
    (∀ input other, active (linesOf input) = active (linesOf other) →
      (answered input).filter (fun a => !a.line.isIdle) =
        (answered other).filter (fun a => !a.line.isIdle) ∧
      after .start (heard (linesOf input)) = after .start (heard (linesOf other)) ∧
      (linesOf input).find? Line.isLast = (linesOf other).find? Line.isLast ∧
      ((linesOf input).Sublist (linesOf other) → (answered input).Sublist (answered other))) ∧
    ∀ front idle back : List UInt8, (front = [] ∨ front.getLast? = some 10) →
      (idle = [] ∨ idle.getLast? = some 10) → (∀ l ∈ linesOf idle, l.isIdle = true) →
      active (linesOf (front ++ back)) = active (linesOf (front ++ idle ++ back)) ∧
      (linesOf (front ++ back)).Sublist (linesOf (front ++ idle ++ back)) := by
  refine ⟨lines_cut, fun input => converse_fold .start _,
    fun input => answers_getElem? .start (heard (linesOf input)), ?_, ?_⟩
  · intro input other h
    have hheard : active (heard (linesOf input)) = active (heard (linesOf other)) := by
      rw [active_heard, active_heard, h]
    refine ⟨?_, ?_, ?_, fun hsub => answers_sublist hsub h .start⟩
    · rw [answered, answered, filter_answers, filter_answers, hheard]
    · rw [← after_active, hheard, after_active]
    · rw [← find?_active, h, find?_active]
  · intro front idle back hfront hidle hlines
    have hnone : active (linesOf idle) = [] :=
      List.filter_eq_nil_iff.mpr fun l hl => by simp [hlines l hl]
    rw [List.append_assoc, linesOf_append hfront, linesOf_append hfront, linesOf_append hidle]
    refine ⟨?_, List.sublist_append_right .. |>.append_left _⟩
    rw [active_append, active_append, active_append, hnone, List.nil_append]

/-- A blank line and one with a mistake are put between two lines. -/
theorem transcript_fold_sample :
    let front := "var a = 5;\n".toUTF8.data.toList
    let idle := " \t\n val = 5;\n".toUTF8.data.toList
    let back := "a = a * 2;\r\nq\na\n".toUTF8.data.toList
    (transcript (front ++ back)).output = ">> >> >> " ∧
    (transcript (front ++ idle ++ back)).output = ">> >> >> " ++
      "Failed to execute the given source code for following reasons.\n" ++
      "\t[ERROR] missing token: IDENTIFIER\n>> >> " ∧
    (answered (front ++ back)).filter (fun a => !a.line.isIdle) =
      (answered (front ++ idle ++ back)).filter (fun a => !a.line.isIdle) ∧
    (answered (front ++ back)).Sublist (answered (front ++ idle ++ back)) := by
  intro front idle back
  have hfront : front.getLast? = some 10 := by decide +kernel
  have hidle : idle.getLast? = some 10 := by decide +kernel
  have hlines : ∀ l ∈ linesOf idle, l.isIdle = true := by decide +kernel
  obtain ⟨-, -, -, hsame, hinsert⟩ := transcript_fold
  obtain ⟨hactive, hsub⟩ := hinsert front idle back (.inr hfront) (.inr hidle) hlines
  obtain ⟨hanswers, -, -, hleft⟩ := hsame _ _ hactive
  exact ⟨by decide +kernel, by decide +kernel, hanswers, hleft hsub⟩

end Repl

end TinyScript
