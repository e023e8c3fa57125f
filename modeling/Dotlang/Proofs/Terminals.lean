import Dotlang.CommandLine
import Dotlang.Session
import Dotlang.Proofs.Phases

/-!
# What the programs write

A dialogue that runs on a console asks for lines of the input and writes what its events show. The command and the
session run the same dialogue and differ in how they cut a line and in what they write beside the events.

* `Text.lines` : the lines of an input;
* `Console.simulateFrom_bind` : a console program behind another;
* `replies trim input`, `shownAll echo events` : the replies that an input gives, and what events show;
* `Dialogue.simulateFrom_onConsole` : a dialogue on a console writes what its replay shows;
* `output_command`, `Session.output_start` : what the command writes, and the session for a file;
* `json_alone_iff` : the command writes the document alone just if nothing is asked and no file fails;
* `prompt_before_document` : otherwise messages stand before it;
* `front_ends_agree` : on one file both write the same, apart from colours;
* `second_return_is_kept` : but not if a line ends in two returns.
-/

namespace Dotlang

/-! ## Lines of an input -/

namespace Text

/-- The lines of an input, each with its line feed if it has one. -/
def lines : List Char → List (List Char)
  | [] => []
  | c :: cs => if c = '\n' then [c] :: lines cs else Machine.consField c (lines cs)

theorem takeLine?_cons {c : Char} (hc : c ≠ '\n') (cs : List Char) :
    takeLine? (c :: cs) = some (((takeLine? cs).map fun found => (c :: found.1, found.2)).getD ([c], [])) := by
  have hdrop : (c :: cs).dropWhile (· ≠ '\n') = cs.dropWhile (· ≠ '\n') :=
    List.dropWhile_cons_of_pos (decide_eq_true hc)
  have htake : (c :: cs).takeWhile (· ≠ '\n') = c :: cs.takeWhile (· ≠ '\n') :=
    List.takeWhile_cons_of_pos (decide_eq_true hc)
  rw [takeLine?, takeLine?, if_neg (List.cons_ne_nil c cs), hdrop, htake]
  cases cs with
  | nil => rfl
  | cons d cs =>
    rw [if_neg (List.cons_ne_nil d cs)]
    cases (d :: cs).dropWhile (· ≠ '\n') <;> rfl

theorem lines_eq (cs : List Char) :
    lines cs = ((takeLine? cs).map fun found => found.1 :: lines found.2).getD [] := by
  induction cs with
  | nil => rfl
  | cons c cs ih =>
    by_cases hc : c = '\n'
    · subst hc
      rfl
    · rw [takeLine?_cons hc, lines, if_neg hc, ih]
      cases takeLine? cs <;> rfl

theorem dropTrailing_cons {c d : Char} (h : c ≠ d) (cs : List Char) :
    dropTrailing d (c :: cs) = c :: dropTrailing d cs := by
  cases cs with
  | nil =>
    have hlast : [c].getLast? ≠ some d := fun hlast => h (Option.some.inj hlast)
    rw [dropTrailing, if_neg hlast]
    rfl
  | cons e cs =>
    rw [dropTrailing, dropTrailing, List.getLast?_cons_cons, List.dropLast_cons_cons]
    split_ifs <;> rfl

/-- A line has no line feed but at its end. -/
theorem feed_not_mem_of_mem_lines {cs line : List Char} (h : line ∈ lines cs) : '\n' ∉ dropTrailing '\n' line := by
  induction cs generalizing line with
  | nil => cases h
  | cons c cs ih =>
    by_cases hc : c = '\n'
    · subst hc
      rcases List.mem_cons.mp h with rfl | h
      · exact List.not_mem_nil
      · exact ih h
    · have hextended : ∀ rest : List Char, '\n' ∉ dropTrailing '\n' rest → '\n' ∉ dropTrailing '\n' (c :: rest) := by
        intro rest hrest
        rw [dropTrailing_cons hc]
        exact List.not_mem_cons_of_ne_of_not_mem (Ne.symm hc) hrest
      rw [lines, if_neg hc] at h
      cases hlines : lines cs with
      | nil =>
        rw [hlines] at h
        rw [List.mem_singleton.mp h]
        exact hextended [] List.not_mem_nil
      | cons first others =>
        rw [hlines] at h ih
        rcases List.mem_cons.mp h with rfl | h
        · exact hextended first (ih List.mem_cons_self)
        · exact ih (List.mem_cons_of_mem _ h)

end Text

/-! ## Console programs -/

/-- Writes files in order, up to the first that cannot be written. -/
def Folder.writeAll (f : Folder) : List (String × String) → Except FileFault Unit × Folder
  | [] => (.ok (), f)
  | (path, text) :: files =>
    match f.write path text with
    | .ok changed => changed.writeAll files
    | .error fault => (.error fault, f)

namespace Console

variable {α β : Type} {shown : String} {input : List Char} {folder : Folder}

/-- The second program goes on with what the first one has written and left. -/
theorem simulateFrom_bind {c : Console α} {o : Outcome α} (h : c.simulateFrom shown input folder = o)
    (f : α → Console β) :
    (c >>= f).simulateFrom shown input folder = (f o.result).simulateFrom o.output o.input o.folder := by
  subst h
  show (c.bind f).simulateFrom shown input folder = _
  induction c generalizing shown input folder with
  | done a => rfl
  | write text next ih => exact ih ()
  | readLine next ih =>
    simp only [bind, simulateFrom]
    cases Text.takeLine? input with
    | none => exact ih none
    | some found => exact ih _
  | readFile path next ih => exact ih _
  | writeFile path text next ih =>
    simp only [bind, simulateFrom]
    cases folder.write path text with
    | error fault => exact ih _
    | ok changed => exact ih _

theorem simulateFrom_put (text : String) :
    (put text).simulateFrom shown input folder = ⟨shown ++ text, (), input, folder⟩ := rfl

theorem simulateFrom_getFile (path : String) :
    (getFile path).simulateFrom shown input folder = ⟨shown, folder.read path, input, folder⟩ := rfl

/-- Writing files writes no text and reads no line. -/
theorem simulateFrom_putFiles (files : List (String × String)) :
    (putFiles files).simulateFrom shown input folder =
      ⟨shown, (folder.writeAll files).1, input, (folder.writeAll files).2⟩ := by
  induction files generalizing folder with
  | nil => rfl
  | cons file files ih =>
    simp only [putFiles, simulateFrom, Folder.writeAll]
    cases folder.write file.1 file.2 with
    | error fault => rfl
    | ok changed => exact ih

end Console

/-- The replies in an input, line by line. -/
def replies (trim : List Char → List Char) (input : List Char) : List (Option String) :=
  (Text.lines input).map fun line => some (String.ofList (trim line))

theorem replies_congr {input : List Char} {trim trim' : List Char → List Char}
    (h : ∀ line ∈ Text.lines input, trim line = trim' line) : replies trim input = replies trim' input :=
  List.map_congr_left fun line hline => by rw [h line hline]

theorem replies_of_takeLine?_none {input : List Char} (h : Text.takeLine? input = none)
    (trim : List Char → List Char) : replies trim input = [] := by
  rw [replies, Text.lines_eq, h]
  rfl

theorem replies_of_takeLine?_some {input line rest : List Char} (h : Text.takeLine? input = some (line, rest))
    (trim : List Char → List Char) :
    replies trim input = some (String.ofList (trim line)) :: replies trim rest := by
  rw [replies, Text.lines_eq, h]
  rfl

/-- What an event writes on a console. -/
def Event.shown (echo : Bool) : Event → String
  | print line => if echo then line ++ "\n" else ""
  | prompt message => message ++ " "

def shownAll (echo : Bool) (events : List Event) : String := String.join (events.map (Event.shown echo))

@[simp] theorem shownAll_nil (echo : Bool) : shownAll echo [] = "" := rfl

theorem shownAll_cons (echo : Bool) (e : Event) (events : List Event) :
    shownAll echo (e :: events) = e.shown echo ++ shownAll echo events := by
  simp [shownAll]

/-- **A dialogue on a console writes what its replay shows**, and leaves the replies that it did not ask for. -/
theorem Dialogue.simulateFrom_onConsole {α : Type} (d : Dialogue α) (echo : Bool) (trim : List Char → List Char)
    (shown : String) (input : List Char) (folder : Folder) :
    ∃ rest, replies trim rest = (d.replay (replies trim input)).unused ∧
      (d.onConsole echo trim).simulateFrom shown input folder =
        ⟨shown ++ shownAll echo (d.replay (replies trim input)).events, (d.replay (replies trim input)).result, rest,
          folder⟩ := by
  induction d generalizing shown input with
  | done a =>
    refine ⟨input, rfl, ?_⟩
    show (⟨shown, a, input, folder⟩ : Outcome α) = ⟨shown ++ shownAll echo [], a, input, folder⟩
    rw [shownAll_nil, String.append_empty]
  | print line next ih =>
    obtain ⟨rest, hrest, hnext⟩ := ih () (shown ++ Event.shown echo (.print line)) input
    refine ⟨rest, by rw [hrest, replay_print], ?_⟩
    rw [replay_print, shownAll_cons, ← String.append_assoc, ← hnext]
    cases echo with
    | true => rfl
    | false => simp [onConsole, Event.shown]
  | prompt message next ih =>
    rw [replay_prompt, shownAll_cons, ← String.append_assoc]
    simp only [onConsole, Console.simulateFrom]
    cases hline : Text.takeLine? input with
    | none =>
      rw [replies_of_takeLine?_none hline]
      exact ih none (shown ++ (message ++ " ")) []
    | some found =>
      rw [replies_of_takeLine?_some hline]
      simp only [Option.map_some, String.toList_ofList]
      exact ih (some (String.ofList (trim found.1))) (shown ++ (message ++ " ")) found.2

/-- Without printed lines, what events show is nothing only where nothing is asked. -/
theorem shownAll_false_eq_empty_iff (events : List Event) :
    shownAll false events = "" ↔ ∀ message, .prompt message ∉ events := by
  induction events with
  | nil => simp
  | cons e events ih =>
    cases e with
    | print line => simp [shownAll_cons, Event.shown, ih]
    | prompt message =>
      have hshown : shownAll false (.prompt message :: events) ≠ "" := by simp [shownAll_cons, Event.shown]
      exact iff_of_false hshown fun h => h message List.mem_cons_self

theorem Report.unlines_singleton (line : String) : unlines [line] = line ++ "\n" := by
  simp [unlines]

/-- A text between two others is the whole only if these are empty. -/
theorem append_append_eq_iff (before s after : String) : before ++ s ++ after = s ↔ before = "" ∧ after = "" := by
  constructor
  · intro h
    have hlength := congrArg String.length h
    rw [String.length_append, String.length_append] at hlength
    exact ⟨String.length_eq_zero_iff.mp (by omega), String.length_eq_zero_iff.mp (by omega)⟩
  · rintro ⟨rfl, rfl⟩
    rw [String.empty_append, String.append_empty]

/-! ## The command -/

namespace CommandLine

open Report (unlines boldRed)

/-- The options depend on the folder alone. -/
theorem simulateFrom_options? (a : Arguments) (shown : String) (stdin : List Char) (folder : Folder) :
    (options? a).simulateFrom shown stdin folder =
      ⟨shown, ((options? a).simulate "" folder).result, stdin, folder⟩ := by
  cases hconfig : a.config <;> simp only [options?, hconfig] <;> rfl

/-- The files that the command writes for a compilation. -/
def files (a : Arguments) (input : String) (c : Compilation) : List (String × String) :=
  if .emit ∈ a.flags then emitted input c else []

theorem report_nil (c : Compilation) : report [] c = Report.diagnostics c := by
  simp [report]

/-- How the command ends its output if a file cannot be written. -/
def complaint : Except FileFault Unit → List String
  | .ok () => []
  | .error fault => [boldRed "error" ++ ": " ++ fault.message]

theorem unlines_complaint_eq_empty_iff (written : Except FileFault Unit) :
    unlines (complaint written) = "" ↔ written = .ok () := by
  cases written with
  | ok => simp [complaint, unlines]
  | error fault => simp [complaint, unlines]

section Output

variable {args : List String} {input source : String} {a : Arguments} {options : Options} {folder : Folder}
  {t : Transcript Compilation}

theorem simulateFrom_compileFile {stdin : List Char} (hsource : folder.read input = .ok source)
    (ht : (compile source options).replay (replies trimReply stdin) = t) (a : Arguments) (shown : String) :
    ∃ rest, (compileFile input a.flags options).simulateFrom shown stdin folder =
      ⟨shown ++ shownAll (.json ∉ a.flags) t.events ++ unlines (report a.flags t.result),
        match (folder.writeAll (files a input t.result)).1 with
        | .error fault => .error (.unwritable fault)
        | .ok () => .ok (t.result.diagnostics = []),
        rest, (folder.writeAll (files a input t.result)).2⟩ := by
  obtain ⟨rest, -, hconsole⟩ :=
    (compile source options).simulateFrom_onConsole (.json ∉ a.flags) trimReply shown stdin folder
  rw [ht] at hconsole
  refine ⟨rest, ?_⟩
  rw [compileFile, Console.simulateFrom_bind (Console.simulateFrom_getFile input), hsource]
  dsimp only
  rw [Console.simulateFrom_bind hconsole, Console.simulateFrom_bind (Console.simulateFrom_put _),
    Console.simulateFrom_bind (Console.simulateFrom_putFiles _), ← files]
  dsimp only
  cases (folder.writeAll (files a input t.result)).1 <;> rfl

variable {stdin : String} (hparse : Arguments.parse args = .ok (.compile input a))
  (hoptions : ((options? a).simulate stdin folder).result = some options) (hsource : folder.read input = .ok source)
include hparse hoptions hsource

/-- **What the command writes**: what the events of its dialogue show, its report, and the first file that fails. -/
theorem output_command (ht : (compile source options).replay (replies trimReply stdin.toList) = t) :
    ((command args).simulate stdin folder).output =
      shownAll (.json ∉ a.flags) t.events ++ unlines (report a.flags t.result) ++
        unlines (complaint (folder.writeAll (files a input t.result)).1) := by
  obtain ⟨rest, hcompile⟩ := simulateFrom_compileFile hsource ht a ""
  rw [Console.simulate, simulateFrom_options?] at hoptions
  rw [Console.simulate, command, hparse]
  dsimp only
  rw [Console.simulateFrom_bind (simulateFrom_options? ..), hoptions]
  dsimp only
  rw [Console.simulateFrom_bind hcompile, String.empty_append]
  dsimp only
  cases (folder.writeAll (files a input t.result)).1 with
  | ok => exact (String.append_empty ..).symm
  | error fault =>
    rw [complaint, Report.unlines_singleton]
    rfl

/-- With `--json` only the messages of prompts stand before the document, and only the first file that fails behind
it. -/
theorem output_command_json (hjson : .json ∈ a.flags)
    (ht : (compile source options).replay (replies trimReply stdin.toList) = t) :
    ((command args).simulate stdin folder).output =
      shownAll false t.events ++ (t.result.json ++ "\n") ++
        unlines (complaint (folder.writeAll (files a input t.result)).1) := by
  rw [output_command hparse hoptions hsource ht, report, if_pos hjson, Report.unlines_singleton,
    decide_eq_false (not_not_intro hjson)]

end Output

/-- **Main result.** With `--json` the command writes the document and a line feed alone just if the program asks
nothing and no file that it is to write fails. -/
theorem json_alone_iff {args : List String} {input source stdin : String} {a : Arguments} {options : Options}
    {folder : Folder} (hparse : Arguments.parse args = .ok (.compile input a))
    (hoptions : ((options? a).simulate stdin folder).result = some options) (hsource : folder.read input = .ok source)
    (hjson : .json ∈ a.flags) :
    let t := (compile source options).replay (replies trimReply stdin.toList)
    ((command args).simulate stdin folder).output = t.result.json ++ "\n" ↔
      (∀ message, .prompt message ∉ t.events) ∧ (folder.writeAll (files a input t.result)).1 = .ok () := by
  intro t
  rw [output_command_json hparse hoptions hsource hjson rfl, append_append_eq_iff, shownAll_false_eq_empty_iff,
    unlines_complaint_eq_empty_iff]

/-- A folder with one file. -/
def folderOf (source : String) : Folder := ⟨[(["p.cf"], source)]⟩

theorem json_alone_of_printing :
    let t := (compile "printO(1);" {}).replay []
    t.events = [.print "1"] ∧
      ((command ["--json", "-e", "p.cf"]).simulate "" (folderOf "printO(1);")).output = t.result.json ++ "\n" := by
  intro t
  have hevents : t.events = [.print "1"] := by decide +kernel
  have hparse : Arguments.parse ["--json", "-e", "p.cf"] =
      .ok (.compile "p.cf" { input := some "p.cf", flags := [.json, .emit] }) := by decide +kernel
  have hoptions : ((options? { input := some "p.cf", flags := [.json, .emit] }).simulate ""
      (folderOf "printO(1);")).result = some {} := rfl
  have hsource : (folderOf "printO(1);").read "p.cf" = .ok "printO(1);" := by decide +kernel
  have hasked : ∀ message, .prompt message ∉ t.events := by simp [hevents]
  have hwritten : ((folderOf "printO(1);").writeAll
      (files { input := some "p.cf", flags := [.json, .emit] } "p.cf" t.result)).1 = .ok () := by decide +kernel
  exact ⟨hevents, (json_alone_iff hparse hoptions hsource (by decide)).mpr ⟨hasked, hwritten⟩⟩

/-- Asks for a text. -/
def asking : String := "Sring a =. \"b\"; enter(\"?\", a);"

/-- **With `--json` the message of a prompt stands before the document.** -/
theorem prompt_before_document :
    let t := (compile asking {}).replay [some "x"]
    ((command ["--json", "p.cf"]).simulate "x\n" (folderOf asking)).output = "? " ++ (t.result.json ++ "\n") ∧
      ((command ["--json", "p.cf"]).simulate "x\n" (folderOf asking)).output ≠ t.result.json ++ "\n" := by
  intro t
  have hparse : Arguments.parse ["--json", "p.cf"] =
      .ok (.compile "p.cf" { input := some "p.cf", flags := [.json] }) := by decide +kernel
  have hoptions : ((options? { input := some "p.cf", flags := [.json] }).simulate "x\n" (folderOf asking)).result =
      some {} := rfl
  have hsource : (folderOf asking).read "p.cf" = .ok asking := by decide +kernel
  have ht : (compile asking {}).replay (replies trimReply "x\n".toList) = t := by
    rw [show replies trimReply "x\n".toList = [some "x"] by decide +kernel]
  have hshown : shownAll false t.events = "? " := by decide +kernel
  have houtput := output_command_json hparse hoptions hsource (by decide) ht
  have hcomplaint : unlines (complaint ((folderOf asking).writeAll
      (files { input := some "p.cf", flags := [.json] } "p.cf" t.result)).1) = "" := rfl
  rw [hshown, hcomplaint, String.append_empty] at houtput
  refine ⟨houtput, fun h => ?_⟩
  rw [houtput] at h
  have hempty := (append_append_eq_iff "? " (t.result.json ++ "\n") "").mp ((String.append_empty ..).trans h)
  exact absurd hempty.1 (by decide)

end CommandLine

/-! ## The session -/

namespace Session

/-- **What the session writes for a file**: what the events of its dialogue show, and its diagnostics. -/
theorem output_start {path source stdin : String} {folder : Folder} {t : Transcript Compilation}
    (hsource : folder.read path = .ok source)
    (ht : (compile source {}).replay (replies trimLine stdin.toList) = t) (others : List String) (limit : Nat) :
    ((start (path :: others) limit).simulate stdin folder).output =
      shownAll true t.events ++ Report.unlines (t.result.diagnostics.map Diagnostic.text) := by
  obtain ⟨rest, -, hconsole⟩ := (compile source {}).simulateFrom_onConsole true trimLine "" stdin.toList folder
  rw [ht] at hconsole
  have hevaluate : (evaluate source).simulateFrom "" stdin.toList folder =
      ⟨shownAll true t.events ++ Report.unlines (t.result.diagnostics.map Diagnostic.text), (), rest, folder⟩ := by
    rw [evaluate, Console.simulateFrom_bind hconsole, String.empty_append]
    rfl
  rw [Console.simulate, start, Console.simulateFrom_bind (Console.simulateFrom_getFile path), hsource]
  dsimp only
  rw [Console.simulateFrom_bind hevaluate]
  rfl

end Session

/-! ## Both on one file -/

open CommandLine (Arguments command trimReply)
open Session (trimLine)

theorem parse_file {file : String} (hname : Arguments.looksLikeFlag file = false) (hne : file ≠ "") :
    Arguments.parse [file] = .ok (.compile file { input := some file }) := by
  have hdashes : file ≠ "--" := by
    rintro rfl
    exact absurd hname (by decide)
  have hone : Arguments.readOne {} file = .ok (.next { input := some file }) := by
    unfold Arguments.readOne
    split
    · next cs hcs => simp [Arguments.looksLikeFlag, hcs] at hname
    · next c cs hcs => simp [Arguments.looksLikeFlag, hcs] at hname
    · rw [Arguments.setInput, if_neg (by simp), if_neg hne]
      rfl
  rw [Arguments.parse, Arguments.readAll, if_neg hdashes, hone]
  rfl

/-- A line end is cut off by both. -/
theorem trimReply_append {c : Char} (hc : c = '\n' ∨ c = '\r') (cs : List Char) :
    trimReply (cs ++ [c]) = trimReply cs := by
  rw [trimReply, List.reverse_append, List.reverse_singleton, List.singleton_append,
    List.dropWhile_cons_of_pos (by simpa using hc)]
  rfl

theorem trimReply_eq_self {c : Char} (hfeed : c ≠ '\n') (hreturn : c ≠ '\r') (cs : List Char) :
    trimReply (cs ++ [c]) = cs ++ [c] := by
  rw [trimReply, List.reverse_append, List.reverse_singleton, List.singleton_append,
    List.dropWhile_cons_of_neg (by simp [hfeed, hreturn]), List.reverse_cons, List.reverse_reverse]

/-- The command cuts all returns off the end of a line and the session cuts one. -/
theorem trimReply_eq_dropTrailing {body : List Char} (hfeed : '\n' ∉ body) (hreturns : ¬ ['\r', '\r'] <:+ body) :
    trimReply body = Text.dropTrailing '\r' body := by
  induction body using List.reverseRecOn with
  | nil => rfl
  | append_singleton before c =>
    by_cases hc : c = '\r'
    · subst hc
      rw [trimReply_append (Or.inr rfl), Text.dropTrailing_append_singleton]
      induction before using List.reverseRecOn with
      | nil => rfl
      | append_singleton earlier d =>
        refine trimReply_eq_self ?_ ?_ earlier
        · rintro rfl
          exact hfeed (by simp)
        · rintro rfl
          exact hreturns ⟨earlier, by simp⟩
    · have hne : c ≠ '\n' := by
        rintro rfl
        exact hfeed (by simp)
      rw [trimReply_eq_self hne hc, Text.dropTrailing, if_neg (by simpa using hc)]

theorem trimReply_eq_trimLine {line : List Char} (hfeed : '\n' ∉ Text.dropTrailing '\n' line)
    (hreturns : ¬ ['\r', '\r'] <:+ Text.dropTrailing '\n' line) : trimReply line = trimLine line := by
  have hbody : trimReply line = trimReply (Text.dropTrailing '\n' line) := by
    induction line using List.reverseRecOn with
    | nil => rfl
    | append_singleton before c =>
      by_cases hc : c = '\n'
      · subst hc
        rw [Text.dropTrailing_append_singleton, trimReply_append (Or.inl rfl)]
      · rw [Text.dropTrailing, if_neg (by simpa using hc)]
  rw [hbody, trimReply_eq_dropTrailing hfeed hreturns, trimLine]

/-- **Main result.** On a file alone, whatever the input, the command and the session write the same: what the events of
one dialogue show, and its diagnostics, which only the command colours. The input has no line that ends in two carriage
returns. -/
theorem front_ends_agree {file source stdin : String} {folder : Folder} (hname : Arguments.looksLikeFlag file = false)
    (hsource : folder.read file = .ok source)
    (hreturns : ∀ line ∈ Text.lines stdin.toList, ¬ ['\r', '\r'] <:+ Text.dropTrailing '\n' line) (limit : Nat) :
    let t := (compile source {}).replay (replies trimLine stdin.toList)
    ((command [file]).simulate stdin folder).output = shownAll true t.events ++
        Report.unlines (t.result.diagnostics.map fun d => Report.boldRed d.text) ∧
      ((Session.start [file] limit).simulate stdin folder).output = shownAll true t.events ++
        Report.unlines (t.result.diagnostics.map Diagnostic.text) := by
  intro t
  have hreplies : replies trimReply stdin.toList = replies trimLine stdin.toList :=
    replies_congr fun line hline =>
      trimReply_eq_trimLine (Text.feed_not_mem_of_mem_lines hline) (hreturns line hline)
  have hne : file ≠ "" := by
    rintro rfl
    have hmissing : folder.read "" = .error .missing := rfl
    rw [hmissing] at hsource
    cases hsource
  have hoptions : ((CommandLine.options? { input := some file }).simulate stdin folder).result = some {} := rfl
  have hcommand := CommandLine.output_command (t := t) (parse_file hname hne) hoptions hsource (by rw [hreplies])
  have hfiles : CommandLine.files { input := some file } file t.result = [] := rfl
  rw [CommandLine.report_nil, hfiles] at hcommand
  have hsession := Session.output_start hsource (t := t) rfl [] limit
  exact ⟨hcommand.trans (String.append_empty ..), hsession⟩

/-- Asks, prints the reply and divides by zero. -/
def askingThenFault : String := "Sring a =. \"b\"; enter(\"?\", a); printO(a); nmb n =. 1 /. 0;"

theorem front_ends_agree_askingThenFault :
    ((command ["p.cf"]).simulate "x\r\n" (CommandLine.folderOf askingThenFault)).output =
        "? x\n" ++ Report.boldRed "Runtime error: Division by zero" ++ "\n" ∧
      ((Session.start ["p.cf"] 0).simulate "x\r\n" (CommandLine.folderOf askingThenFault)).output =
        "? x\n" ++ "Runtime error: Division by zero" ++ "\n" := by
  have hsource : (CommandLine.folderOf askingThenFault).read "p.cf" = .ok askingThenFault := by decide +kernel
  have hreturns : ∀ line ∈ Text.lines "x\r\n".toList, ¬ ['\r', '\r'] <:+ Text.dropTrailing '\n' line := by
    decide +kernel
  obtain ⟨hcommand, hsession⟩ := front_ends_agree (by decide) hsource hreturns 0
  refine ⟨hcommand.trans ?_, hsession.trans ?_⟩
  · decide +kernel
  · decide +kernel

/-- Asks and prints the reply. -/
def echoing : String := "Sring a =. \"b\"; enter(\"?\", a); printO(a);"

/-- **Of two returns at the end of a line the command drops both and the session one.** -/
theorem second_return_is_kept :
    ((command ["p.cf"]).simulate "x\r\r\n" (CommandLine.folderOf echoing)).output = "? x\n" ∧
      ((Session.start ["p.cf"] 0).simulate "x\r\r\n" (CommandLine.folderOf echoing)).output = "? x\r\n" := by
  decide +kernel

end Dotlang
