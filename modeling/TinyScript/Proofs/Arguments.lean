import TinyScript.CommandLine

/-!
# Arguments

A command asks for a run exactly if its arguments name at most one file and have at most one switch
for the dialogue, in whatever order; behind `--` everything is the name of a file
(`CommandLine.request_eq_ok_iff`). A run of a file fails with messages or succeeds without one
(`CommandLine.runFile_outcome`).
-/

namespace TinyScript.CommandLine

def isSwitch (arg : String) : Bool := arg = "-i" || arg = "--interactive"

/-- A lone hyphen is a name too. -/
def isName (arg : String) : Bool := arg = "-" || arg.toList.head? != some '-'

/-- Arguments that are understood, with the files they name and the number of their switches. -/
inductive Understood : List String → List String → Nat → Prop
  | nil : Understood [] [] 0
  | switch : isSwitch arg = true → Understood args files switches →
      Understood (arg :: args) files (switches + 1)
  | name : isName arg = true → Understood args files switches →
      Understood (arg :: args) (arg :: files) switches
  | names (files : List String) : Understood ("--" :: files) files 0

theorem isSwitch_iff :
    isSwitch arg = true ↔
      arg.toList = ['-', 'i'] ∨ arg.toList = '-' :: '-' :: "interactive".toList := by
  rw [isSwitch, Bool.or_eq_true, decide_eq_true_eq, decide_eq_true_eq, ← String.toList_inj,
    ← String.toList_inj]
  rfl

theorem isName_iff : isName arg = true ↔ arg.toList = ['-'] ∨ arg.toList.head? ≠ some '-' := by
  rw [isName, Bool.or_eq_true, decide_eq_true_eq, bne_iff_ne, ← String.toList_inj]
  rfl

theorem ne_dashes (h : isSwitch arg = true ∨ isName arg = true) : arg ≠ "--" := by
  rintro rfl
  exact absurd h (by decide)

section
variable {o o' : Options}

/-- There is room for one file. -/
theorem two_files_ne (file name : String) (files : List String) :
    (some file).toList ++ name :: files ≠ o'.file.toList := by
  intro h
  have hlength := congrArg List.length h
  cases hfile : o'.file <;> simp [hfile] at hlength

theorem setFile_eq_ok_iff :
    setFile name o = .ok o' ↔
      o.file.toList ++ [name] = o'.file.toList ∧ o.interactive.toNat = o'.interactive.toNat := by
  obtain ⟨file, interactive⟩ := o
  obtain ⟨file', interactive'⟩ := o'
  cases interactive <;> cases interactive' <;> cases file <;> cases file' <;> simp [setFile]

theorem setInteractive_eq_ok_iff :
    setInteractive o = .ok o' ↔
      o.file.toList = o'.file.toList ∧ o.interactive.toNat + 1 = o'.interactive.toNat := by
  obtain ⟨file, interactive⟩ := o
  obtain ⟨file', interactive'⟩ := o'
  cases interactive <;> cases interactive' <;> cases file <;> cases file' <;> simp [setInteractive]

theorem setInteractive_once (h : setInteractive o = .ok o') (o'' : Options) :
    setInteractive o' ≠ .ok o'' := by
  intro h'
  have hfirst := (setInteractive_eq_ok_iff.mp h).2
  have hsecond := (setInteractive_eq_ok_iff.mp h').2
  have hle := Bool.toNat_le o''.interactive
  omega

theorem readFlag_eq_ok_iff :
    readFlag o flag = .ok o' ↔ flag = 'i' ∧ setInteractive o = .ok o' := by
  unfold readFlag
  split
  case h_1 => simp
  case h_2 | h_3 => simp
  case h_4 hi _ _ => exact iff_of_false nofun fun h => hi h.1

theorem readFlags_eq_ok_iff (flag : Char) (flags : List Char) :
    (flag :: flags).foldlM readFlag o = .ok o' ↔
      flag :: flags = ['i'] ∧ setInteractive o = .ok o' := by
  rw [List.foldlM_cons]
  cases hfirst : readFlag o flag with
  | error notice =>
    refine iff_of_false nofun fun ⟨hflags, hset⟩ => ?_
    obtain ⟨rfl, rfl⟩ := List.cons.inj hflags
    exact nomatch hfirst.symm.trans (readFlag_eq_ok_iff.mpr ⟨rfl, hset⟩)
  | ok o₁ =>
    obtain ⟨rfl, hset⟩ := readFlag_eq_ok_iff.mp hfirst
    rw [hset]
    cases flags with
    | nil => exact ⟨fun h => ⟨rfl, h⟩, And.right⟩
    | cons flag flags =>
      refine iff_of_false (fun h => ?_) fun h => nomatch h.1
      cases hnext : readFlag o₁ flag with
      | error notice =>
        have herror : (flag :: flags).foldlM readFlag o₁ = .error notice := by
          rw [List.foldlM_cons, hnext]
          rfl
        exact nomatch herror.symm.trans h
      | ok o₂ => exact setInteractive_once hset o₂ (readFlag_eq_ok_iff.mp hnext).2

theorem readArgument_eq_ok_iff :
    readArgument o arg = .ok o' ↔
      isSwitch arg = true ∧ setInteractive o = .ok o' ∨
        isName arg = true ∧ setFile arg o = .ok o' := by
  rw [isSwitch_iff, isName_iff]
  unfold readArgument
  generalize "interactive".toList = long
  split
  case h_1 harg =>
    rw [harg]
    exact ⟨fun h => .inr ⟨.inl rfl, h⟩, fun h => (h.resolve_left fun h => nomatch h.1).2⟩
  case h_2 name harg =>
    have hname : ¬(arg.toList = ['-'] ∨ arg.toList.head? ≠ some '-') := by simp [harg]
    have hswitch : arg.toList = ['-', 'i'] ∨ arg.toList = '-' :: '-' :: long ↔ name = long := by
      simp [harg]
    rw [hswitch, or_iff_left fun h => hname h.1]
    split
    case isTrue hlong => exact ⟨fun h => ⟨hlong, h⟩, And.right⟩
    case isFalse hlong =>
      refine iff_of_false (fun h => ?_) fun h => hlong h.1
      split at h
      · exact nomatch h
      · split at h <;> exact nomatch h
  case h_3 flags hlone hlong harg =>
    have hname : ¬(arg.toList = ['-'] ∨ arg.toList.head? ≠ some '-') := by
      rw [harg]
      rintro (h | h)
      · exact hlone (List.cons.inj h).2
      · exact h rfl
    rw [or_iff_left fun h => hname h.1]
    cases flags with
    | nil => exact absurd rfl hlone
    | cons flag flags =>
      have hswitch : arg.toList = ['-', 'i'] ∨ arg.toList = '-' :: '-' :: long ↔
          flag :: flags = ['i'] := by
        rw [harg, List.cons_inj_right, List.cons_inj_right]
        exact or_iff_left (hlong long)
      rw [readFlags_eq_ok_iff, hswitch]
  case h_4 hlone hlong hflags =>
    have hhead : arg.toList.head? ≠ some '-' := by
      cases harg : arg.toList with
      | nil => exact nofun
      | cons c rest =>
        intro h
        obtain rfl : c = '-' := Option.some.inj h
        exact hflags rest harg
    have hswitch : ¬(arg.toList = ['-', 'i'] ∨ arg.toList = '-' :: '-' :: long) := by
      rintro (h | h) <;> exact hhead (by rw [h]; rfl)
    rw [or_iff_right fun h => hswitch h.1]
    exact ⟨fun h => ⟨.inr hhead, h⟩, And.right⟩

theorem setFiles_eq_ok_iff (files : List String) :
    files.foldlM (fun o name => setFile name o) o = .ok o' ↔
      o.file.toList ++ files = o'.file.toList ∧ o.interactive.toNat = o'.interactive.toNat := by
  induction files generalizing o with
  | nil =>
    obtain ⟨file, interactive⟩ := o
    obtain ⟨file', interactive'⟩ := o'
    have hnone : [].foldlM (fun o name => setFile name o) ⟨file, interactive⟩ =
      (.ok ⟨file, interactive⟩ : Reading) := rfl
    rw [hnone, Except.ok.injEq, Options.mk.injEq, List.append_nil]
    cases interactive <;> cases interactive' <;> cases file <;> cases file' <;> simp
  | cons name files ih =>
    rw [List.foldlM_cons]
    obtain ⟨_ | file, interactive⟩ := o
    · exact ih
    · exact iff_of_false nofun fun h => two_files_ne file name files h.1

theorem readArguments_cons (hdashes : arg ≠ "--") (args : List String) :
    readArguments o (arg :: args) = .ok o' ↔
      ∃ o₁, readArgument o arg = .ok o₁ ∧ readArguments o₁ args = .ok o' := by
  rw [readArguments, if_neg hdashes]
  cases readArgument o arg with
  | error notice => exact iff_of_false nofun fun ⟨_, h, _⟩ => nomatch h
  | ok o₁ =>
    refine ⟨fun h => ⟨o₁, rfl, h⟩, fun ⟨o₂, h, hrest⟩ => ?_⟩
    obtain rfl := Except.ok.inj h
    exact hrest

theorem understood_of_read (args : List String) (h : readArguments o args = .ok o') :
    ∃ files switches, Understood args files switches ∧ o.file.toList ++ files = o'.file.toList ∧
      o.interactive.toNat + switches = o'.interactive.toNat := by
  induction args generalizing o with
  | nil =>
    obtain rfl := Except.ok.inj h
    exact ⟨[], 0, .nil, List.append_nil _, rfl⟩
  | cons arg args ih =>
    by_cases hdashes : arg = "--"
    · rw [readArguments, if_pos hdashes] at h
      obtain ⟨hfiles, hinteractive⟩ := (setFiles_eq_ok_iff args).mp h
      exact ⟨args, 0, hdashes ▸ .names args, hfiles, hinteractive⟩
    · obtain ⟨o₁, harg, hargs⟩ := (readArguments_cons hdashes args).mp h
      obtain ⟨files, switches, hunderstood, hfiles, hswitches⟩ := ih hargs
      rcases readArgument_eq_ok_iff.mp harg with ⟨hswitch, hset⟩ | ⟨hname, hset⟩
      · obtain ⟨hfile, hcount⟩ := setInteractive_eq_ok_iff.mp hset
        refine ⟨files, switches + 1, .switch hswitch hunderstood, hfile ▸ hfiles, ?_⟩
        rw [← hswitches, ← hcount, Nat.add_right_comm, Nat.add_assoc]
      · obtain ⟨hfile, hinteractive⟩ := setFile_eq_ok_iff.mp hset
        refine ⟨arg :: files, switches, .name hname hunderstood, ?_, hinteractive ▸ hswitches⟩
        rw [← hfiles, ← hfile, List.append_assoc, List.singleton_append]

theorem Understood.read (h : Understood args files switches)
    (hfiles : o.file.toList ++ files = o'.file.toList)
    (hswitches : o.interactive.toNat + switches = o'.interactive.toNat) :
    readArguments o args = .ok o' := by
  induction h generalizing o with
  | nil => exact (setFiles_eq_ok_iff []).mpr ⟨hfiles, hswitches⟩
  | names files =>
    rw [readArguments, if_pos rfl]
    exact (setFiles_eq_ok_iff files).mpr ⟨hfiles, hswitches⟩
  | @switch arg args files switches harg _ ih =>
    have hdashes : arg ≠ "--" := ne_dashes (.inl harg)
    obtain ⟨file, _ | _⟩ := o
    · have hset : setInteractive ⟨file, false⟩ = .ok ⟨file, true⟩ := rfl
      have hcount : Bool.toNat true + switches = o'.interactive.toNat := by
        rw [← hswitches, Bool.toNat_false, Bool.toNat_true]
        omega
      exact (readArguments_cons hdashes args).mpr
        ⟨_, readArgument_eq_ok_iff.mpr (.inl ⟨harg, hset⟩), ih hfiles hcount⟩
    · have hle := Bool.toNat_le o'.interactive
      rw [Bool.toNat_true] at hswitches
      omega
  | @name arg args files switches harg _ ih =>
    have hdashes : arg ≠ "--" := ne_dashes (.inr harg)
    obtain ⟨_ | file, interactive⟩ := o
    · have hset : setFile arg ⟨none, interactive⟩ = .ok ⟨some arg, interactive⟩ := rfl
      exact (readArguments_cons hdashes args).mpr
        ⟨_, readArgument_eq_ok_iff.mpr (.inr ⟨harg, hset⟩), ih hfiles hswitches⟩
    · exact absurd hfiles (two_files_ne file arg files)

end

/-- The arguments ask for a run exactly if they are understood, and then for that of the file they
name and with the dialogue if there is a switch. -/
theorem request_eq_ok_iff :
    request args = .ok o ↔ Understood args o.file.toList o.interactive.toNat := by
  refine ⟨fun h => ?_, fun h => h.read rfl (Nat.zero_add _)⟩
  obtain ⟨files, switches, hunderstood, hfiles, hswitches⟩ := understood_of_read args h
  have hcount : switches = o.interactive.toNat := (Nat.zero_add _).symm.trans hswitches
  obtain rfl : files = o.file.toList := hfiles
  rwa [hcount] at hunderstood

example : request ["-i", "--", "-V"] = .ok ⟨some "-V", true⟩ := rfl

theorem mistakes_ne_nil (s : Session) (h : s.runText source = (.error errors, s')) :
    errors ≠ [] := by
  rintro rfl
  unfold Session.runText at h
  split at h
  case h_1 => exact nomatch congrArg Prod.fst h
  case h_2 hsome _ => exact hsome (Except.error.inj (congrArg Prod.fst h))

theorem runText_outcome (source : String) :
    (runText source).status = 0 ∧ (runText source).errors = [] ∨
      (runText source).status = 1 ∧ (runText source).output = "" ∧
        (runText source).errors ≠ [] := by
  unfold runText
  split
  case h_1 errors s hrun =>
    exact .inr ⟨rfl, rfl, fun h => mistakes_ne_nil _ hrun (List.map_eq_nil_iff.mp h)⟩
  case h_2 => exact .inr ⟨rfl, rfl, List.cons_ne_nil _ _⟩
  case h_3 => exact .inl ⟨rfl, rfl⟩

/-- A file that fails prints nothing and says why. -/
theorem runFile_outcome (path : String) (found : Opened) :
    (runFile path found).status = 0 ∧ (runFile path found).errors = [] ∨
      (runFile path found).status = 1 ∧ (runFile path found).output = "" ∧
        (runFile path found).errors ≠ [] := by
  have hfails (message : String) : ([message] : List String) ≠ [] := List.cons_ne_nil _ _
  cases found with
  | missing => exact .inr ⟨rfl, rfl, hfails _⟩
  | unreadable reason => exact .inr ⟨rfl, rfl, hfails _⟩
  | bytes content =>
    rw [runFile]
    split
    · exact .inr ⟨rfl, rfl, hfails _⟩
    · exact runText_outcome _

end TinyScript.CommandLine
