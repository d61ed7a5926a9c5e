import ExprMachine.Proofs.Session.Listings
import ExprMachine.Proofs.Session.Words
import ExprMachine.Session

/-!
# Sessions line by line

A session keeps its machine, the last line that it ran and whether it reports times. What it shows is
still a matter of the lines alone: an expression does what it does on a new machine, and the rest of
the state is read off the lines before.

* `Session.Request` — what a line asks for, by its words; `Session.handleLine_eq_obey`;
* `Session.lastExpression`, `Session.timingAfter` — what the lines so far leave;
* `Session.printed`, `Session.reported`, `Session.answered` — what a line shows, told from the lines
  before it and a new machine;
* `Session.Tracks` — a session that has taken the lines so far: `Session.Tracks.after` keeps it,
  and `Session.Tracks.shows` is what one more line shows;
* `Session.replay_lines` — what is printed, reported and answered to a list of lines.
-/

namespace ExprMachine

/-- A reply as it is written: on a line of its own. -/
def Response.text (r : Response) : String := r.reply.elim "" (· ++ "\n")

namespace Session

open Text (words firstWord)

/-! ### What a line asks for -/

/-- A line to run: without the blanks around it, it is not empty and begins with no colon. -/
def isExpression (line : String) : Bool :=
  (Text.trim line.toList).head?.any fun c => c ≠ ':'

/-- The words of a line. -/
def wordsOf (line : String) : List String := (words line.toList).map String.ofList

/-- What a line asks for. -/
inductive Request where
  | nothing
  | run
  | quit
  | help
  | listing
  | timing
  | setTiming (timed : Bool)
  | usage
  | unknown (name : String)
  deriving DecidableEq, Repr

/-- What the word after `:time` asks for. -/
def timeRequest : Option String → Request
  | none => .timing
  | some argument =>
    if argument = "on" then .setTiming true
    else if argument = "off" then .setTiming false
    else .usage

/-- What a line asks for is in its first two words. -/
def request (line : String) : Request :=
  match wordsOf line with
  | [] => .nothing
  | name :: arguments =>
    if name.toList.head? ≠ some ':' then .run
    else if name = ":q" ∨ name = ":quit" then .quit
    else if name = ":help" then .help
    else if name = ":disasm" then .listing
    else if name = ":time" then timeRequest arguments.head?
    else .unknown name

/-- Do what a line asks for. -/
def obey (s : Session) (line : String) : Request → Session × Response
  | .nothing => (s, {})
  | .run => (s.runLine line, {})
  | .quit => (s, { quits := true })
  | .help => (s, { reply := some helpText })
  | .listing => s.listLast
  | .timing => (s, { reply := some ("time = " ++ if s.timing then "on" else "off") })
  | .setTiming timed =>
    ({ s with timing := timed }, { reply := some ("time -> " ++ if timed then "on" else "off") })
  | .usage => (s, { reply := some "usage: :time [on|off]" })
  | .unknown name => (s, { reply := some ("unknown command: " ++ name ++ ". Type :help") })

/-- The word after `:time` is the argument of the command, which is empty if there is none. -/
theorem setTiming_firstWord (s : Session) (line : String) (rest : List Char) :
    s.setTiming (String.ofList (firstWord rest).1) =
      s.obey line (timeRequest ((words rest).map String.ofList).head?) := by
  rw [Text.words_eq_firstWord]
  by_cases hnone : (firstWord rest).1 = []
  · rw [hnone, if_pos rfl]
    rfl
  · have hne : String.ofList (firstWord rest).1 ≠ "" := by simpa using hnone
    rw [if_neg hnone, List.map_cons, List.head?_cons]
    generalize String.ofList (firstWord rest).1 = argument at hne ⊢
    rw [setTiming, if_neg hne, timeRequest]
    split_ifs <;> rfl

/-- **A session obeys requests**, one a line. -/
theorem handleLine_eq_obey (s : Session) (line : String) :
    s.handleLine line = s.obey line (request line) := by
  unfold handleLine request wordsOf
  cases htrim : Text.trim line.toList with
  | nil =>
    have hwords : words line.toList = [] := by rw [← Text.words_trim, htrim, Text.words_nil]
    rw [hwords]
    rfl
  | cons c rest =>
    obtain ⟨word, others, hfirst, hwords⟩ := Text.firstWord_of_trim htrim
    have hhead : (String.ofList (c :: word)).toList.head? = some c := by simp
    simp only [hwords, List.map_cons, hhead]
    by_cases hc : c = ':'
    · subst hc
      simp only [command, hfirst, setTiming_firstWord s line, ne_eq, not_true_eq_false, if_false]
      split_ifs <;> rfl
    · rw [if_pos (by simpa using hc)]
      split
      · rename_i hnil
        cases hnil
      · rename_i hcolon
        cases hcolon
        exact absurd rfl hc
      · rfl

theorem timeRequest_ne (argument : Option String) :
    timeRequest argument ≠ .run ∧ timeRequest argument ≠ .quit := by
  unfold timeRequest
  split
  · exact ⟨nofun, nofun⟩
  · split_ifs <;> exact ⟨nofun, nofun⟩

/-- The lines to run are those that the trimmed text tells. -/
theorem request_eq_run_iff (line : String) : request line = .run ↔ isExpression line = true := by
  unfold request wordsOf isExpression
  cases htrim : Text.trim line.toList with
  | nil =>
    have hwords : words line.toList = [] := by rw [← Text.words_trim, htrim, Text.words_nil]
    simp [hwords]
  | cons c rest =>
    obtain ⟨word, others, -, hwords⟩ := Text.firstWord_of_trim htrim
    have hhead : (String.ofList (c :: word)).toList.head? = some c := by simp
    simp only [hwords, List.map_cons, hhead]
    by_cases hc : c = ':'
    · subst hc
      simp only [ne_eq, not_true_eq_false, if_false]
      split_ifs <;> simp [timeRequest_ne]
    · rw [if_pos (by simpa using hc)]
      simp [hc]

/-- The lines that end a session are those with such a first word. -/
theorem request_eq_quit_iff (line : String) :
    request line = .quit ↔
      (wordsOf line).head? = some ":q" ∨ (wordsOf line).head? = some ":quit" := by
  unfold request
  cases wordsOf line with
  | nil => simp
  | cons name arguments =>
    simp only [List.head?_cons, Option.some.injEq]
    by_cases hquit : name = ":q" ∨ name = ":quit"
    · have hcolon : name.toList.head? = some ':' := by rcases hquit with rfl | rfl <;> decide
      simp [hcolon, hquit]
    · simp only [hquit, if_false, iff_false]
      split_ifs <;> simp [timeRequest_ne]

/-! ### What the lines so far leave -/

/-- The last line that was run. -/
def lastExpression (earlier : List String) : Option String :=
  (earlier.filter isExpression).getLast?

/-- The setting that a request makes. -/
def Request.timing? : Request → Option Bool
  | .setTiming timed => some timed
  | _ => none

/-- Whether times are reported: the last setting decides, and at first they are not. -/
def timingAfter (earlier : List String) : Bool :=
  (earlier.filterMap fun line => (request line).timing?).getLast?.getD false

theorem lastExpression_concat (earlier : List String) (line : String) :
    lastExpression (earlier ++ [line]) =
      if isExpression line then some line else lastExpression earlier := by
  unfold lastExpression
  cases hline : isExpression line <;> simp [hline]

theorem timingAfter_concat (earlier : List String) (line : String) :
    timingAfter (earlier ++ [line]) = (request line).timing?.getD (timingAfter earlier) := by
  unfold timingAfter
  cases hline : (request line).timing? <;> simp [hline]

/-- A session for a machine with such options that has taken the lines so far. -/
structure Tracks (options : MachineOptions) (earlier : List String) (s : Session) : Prop where
  options_eq : s.machine.options = options
  room_eq : s.machine.output.room = none
  lastSource_eq : s.lastSource = lastExpression earlier
  timing_eq : s.timing = timingAfter earlier

theorem tracks_new {m : Machine} (hroom : m.output.room = none) :
    Tracks m.options [] { machine := m } := ⟨rfl, hroom, rfl, rfl⟩

/-! ### One line -/

/-- What a line prints, if `fresh` is a new machine. -/
def printed (fresh : Machine) (line : String) : List UInt8 :=
  if isExpression line then (fresh.interpret line).1.output.written.toList else []

/-- The report about the last line that was run, if there is one and it does not compile. -/
def diagnosisOfLast (id : HeapId) (earlier : List String) : String :=
  match (lastExpression earlier).map (compile id) with
  | some (.error d) => d.render ++ "\n"
  | _ => ""

/-- The listing of the last line that was run, if there is one and it compiles. -/
def listingOfLast (id : HeapId) (heap : Heap) (earlier : List String) : String :=
  match (lastExpression earlier).map (compile id) with
  | none => "(nothing compiled yet)\n"
  | some (.ok chunk) => Listing.chunk chunk heap "<repl>"
  | some (.error _) => ""

/-- What a line reports after others. -/
def reported (fresh : Machine) (earlier : List String) (line : String) : String :=
  match request line with
  | .run => (fresh.interpret line).1.journal.reports
  | .listing => diagnosisOfLast fresh.heap.id earlier
  | _ => ""

/-- What the answer to a line is after others, with its line break. -/
def answered (id : HeapId) (heap : Heap) (earlier : List String) (line : String) : String :=
  match request line with
  | .nothing | .run | .quit => ""
  | .help => helpText ++ "\n"
  | .listing => listingOfLast id heap earlier
  | .timing => "time = " ++ (if timingAfter earlier then "on" else "off") ++ "\n"
  | .setTiming timed => "time -> " ++ (if timed then "on" else "off") ++ "\n"
  | .usage => "usage: :time [on|off]\n"
  | .unknown name => "unknown command: " ++ name ++ ". Type :help" ++ "\n"

/-- The session after a line. -/
def after (s : Session) (line : String) : Session := (s.handleLine line).1

/-- Running a text with or without measuring the time shows what interpreting it does. -/
theorem interpret_follows_runSource (m : Machine) (source : String) (timing : Bool) :
    (m.interpret source).1.Follows (m.runSource source timing).1 := by
  unfold Machine.interpret Machine.runSource
  rcases m.compileNoting source with ⟨noted, d | chunk⟩
  · exact .refl _
  · dsimp only
    rcases noted.runChunk chunk with ⟨ran, result⟩
    cases timing <;> cases result
    · exact .refl _
    · exact .refl _
    · exact ran.follows_note .timed nofun
    · exact ran.follows_note .timed nofun

/-- **An expression does what it does on a new machine.** -/
theorem runLine_shows {s : Session} {options : MachineOptions} {earlier : List String}
    (h : Tracks options earlier s) (line : String) (id : HeapId) :
    let m := (s.runLine line).machine
    let fresh := ((Machine.new id options).interpret line).1
    m.options = options ∧ m.output.room = none ∧
      m.output.written = s.machine.output.written ++ fresh.output.written.toList ∧
      m.journal.reports = s.machine.journal.reports ++ fresh.journal.reports := by
  intro m fresh
  have hfollows : (s.machine.interpret line).1.Follows m :=
    (interpret_follows_runSource s.machine line s.timing).trans (Machine.follows_note _ _ nofun)
  obtain ⟨hoptions, hroom⟩ := s.machine.interpret_keeps line
  obtain ⟨⟨-, ⟨bytes, hprinted, hprinted'⟩, ⟨text, hreported, hreported'⟩, -, -⟩, -, -⟩ :=
    Machine.interpret_alike (m := s.machine) (n := Machine.new id options)
      (by rw [h.options_eq]; rfl) h.room_eq rfl line
  refine ⟨?_, ?_, ?_, ?_⟩
  · rw [hfollows.options_eq, hoptions, h.options_eq]
  · rw [hfollows.output_eq, hroom h.room_eq]
  · rw [hfollows.output_eq, hprinted, hprinted']
    simp [Machine.new]
  · rw [hfollows.reports_eq, hreported, hreported']
    simp [Machine.new, Journal.reports]

/-- Compiling a text shows nothing of itself. -/
theorem follows_compileNoting (m : Machine) (source : String) :
    m.Follows (m.compileNoting source).1 :=
  ((m.follows_note (.compileEntered source.utf8ByteSize) nofun).trans
    (Machine.follows_event _ _)).trans (Machine.follows_note _ _ nofun)

/-- A text is listed in any company as in this one, or its diagnostic is reported. -/
theorem listSource_shows (m : Machine) (source title : String) (id : HeapId) (heap : Heap) :
    (∃ chunk, compile id source = .ok chunk ∧
      (m.listSource source title).2 = some (Listing.chunk chunk heap title) ∧
      (m.listSource source title).1.journal.reports = m.journal.reports) ∨
    ∃ d, compile id source = .error d ∧ (m.listSource source title).2 = none ∧
      (m.listSource source title).1.journal.reports = m.journal.reports ++ (d.render ++ "\n") := by
  have hreports := (follows_compileNoting m source).reports_eq
  have hresult : (m.compileNoting source).2 = compile m.heap.id.next source := rfl
  unfold Machine.listSource
  generalize m.compileNoting source = noting at hreports hresult ⊢
  obtain ⟨noted, result⟩ := noting
  obtain rfl : result = _ := hresult
  rcases Machine.compile_sameProgram m.heap.id.next id source with
    ⟨a, b, ha, hb, hsame⟩ | ⟨d, ha, hb⟩
  · rw [ha]
    exact .inl ⟨b, hb, congrArg some (Listing.chunk_of_sameProgram hsame _ heap title), hreports⟩
  · rw [ha]
    exact .inr ⟨d, hb, rfl, by rw [Machine.reports_report, hreports]⟩

/-- **The listing and the diagnostic of the last expression** are those that it has anywhere. -/
theorem listLast_shows {s : Session} {options : MachineOptions} {earlier : List String}
    (h : Tracks options earlier s) (id : HeapId) (heap : Heap) :
    s.listLast.2.text = listingOfLast id heap earlier ∧
      s.listLast.1.machine.journal.reports =
        s.machine.journal.reports ++ diagnosisOfLast id earlier := by
  unfold listLast listingOfLast diagnosisOfLast
  rw [h.lastSource_eq]
  cases lastExpression earlier with
  | none => exact ⟨rfl, (String.append_empty).symm⟩
  | some source =>
    dsimp only [Option.map_some]
    obtain ⟨chunk, hcompile, hlisting, hreports⟩ | ⟨d, hcompile, hlisting, hreports⟩ :=
      listSource_shows s.machine source listingTitle id heap
    · rw [hlisting, hreports, hcompile]
      exact ⟨Listing.trimEnd_chunk chunk heap listingTitle, (String.append_empty).symm⟩
    · rw [hlisting, hreports, hcompile]
      exact ⟨rfl, rfl⟩

/-- A request other than to run leaves the stack and the heap alone, and prints nothing. -/
theorem obey_keeps (s : Session) (line : String) {r : Request} (h : r ≠ .run) :
    (s.obey line r).1.machine.stack = s.machine.stack ∧
      (s.obey line r).1.machine.heap = s.machine.heap ∧
      (s.obey line r).1.machine.output = s.machine.output ∧
      (s.obey line r).1.machine.options = s.machine.options ∧
      (s.obey line r).1.lastSource = s.lastSource := by
  cases r with
  | run => exact absurd rfl h
  | listing =>
    simp only [obey, listLast]
    cases hlast : s.lastSource with
    | none => simp [hlast]
    | some source =>
      simp only [Machine.listSource, Machine.compileNoting]
      cases compile (s.machine.note _).heap.id.next source <;> simp [Machine.note, Machine.report]
  | _ => exact ⟨rfl, rfl, rfl, rfl, rfl⟩

/-- A request that makes a setting is the only kind that changes it. -/
theorem obey_timing (s : Session) (line : String) (r : Request) :
    (s.obey line r).1.timing = r.timing?.getD s.timing := by
  cases r with
  | listing =>
    simp only [obey, listLast]
    cases s.lastSource <;> rfl
  | _ => rfl

theorem obey_quits (s : Session) (line : String) (r : Request) :
    (s.obey line r).2.quits = true ↔ r = .quit := by
  cases r with
  | listing =>
    simp only [obey, listLast]
    cases s.lastSource <;> simp
  | _ => simp [obey]

/-! ### Many lines -/

section Tracks

variable {options : MachineOptions} {earlier : List String} {s : Session}

/-- A session that has taken some lines has taken one more after it. -/
theorem Tracks.after (h : Tracks options earlier s) (line : String) :
    Tracks options (earlier ++ [line]) (s.after line) := by
  have htiming : (s.after line).timing = timingAfter (earlier ++ [line]) := by
    rw [Session.after, handleLine_eq_obey, obey_timing, timingAfter_concat, h.timing_eq]
  by_cases hrun : request line = .run
  · obtain ⟨hoptions, hroom, -, -⟩ := runLine_shows h line s.machine.heap.id
    have hafter : s.after line = s.runLine line := by
      rw [Session.after, handleLine_eq_obey, hrun, obey]
    refine ⟨hafter ▸ hoptions, hafter ▸ hroom, ?_, htiming⟩
    rw [hafter, lastExpression_concat, if_pos ((request_eq_run_iff line).1 hrun), runLine]
  · obtain ⟨-, -, houtput, hoptions, hlast⟩ := s.obey_keeps line hrun
    rw [← handleLine_eq_obey] at houtput hoptions hlast
    refine ⟨hoptions.trans h.options_eq, ?_, ?_, htiming⟩
    · rw [Session.after, houtput, h.room_eq]
    · rw [Session.after, hlast, h.lastSource_eq, lastExpression_concat,
        if_neg (mt (request_eq_run_iff line).2 hrun)]

/-- **What one line shows** is a matter of the lines before it. -/
theorem Tracks.shows (h : Tracks options earlier s) (line : String) (id : HeapId) (heap : Heap) :
    (s.after line).machine.output.written =
        s.machine.output.written ++ printed (.new id options) line ∧
      (s.after line).machine.journal.reports =
        s.machine.journal.reports ++ reported (.new id options) earlier line ∧
      (s.handleLine line).2.text = answered id heap earlier line := by
  have hprinted : isExpression line = true ↔ request line = .run := (request_eq_run_iff line).symm
  unfold Session.after printed reported answered
  simp only [handleLine_eq_obey, hprinted]
  by_cases hrun : request line = .run
  · obtain ⟨-, -, hwritten, hreports⟩ := runLine_shows h line id
    simp only [hrun, if_true]
    exact ⟨hwritten, hreports, rfl⟩
  · obtain ⟨-, -, houtput, -, -⟩ := s.obey_keeps line hrun
    rw [if_neg hrun, houtput]
    refine ⟨by simp, ?_⟩
    cases hrequest : request line with
    | run => exact absurd hrequest hrun
    | listing => exact (listLast_shows h id heap).symm
    | timing =>
      rw [← h.timing_eq]
      exact ⟨String.append_empty.symm, rfl⟩
    | _ => exact ⟨String.append_empty.symm, rfl⟩

/-- What is told of each of some lines, after those before it. -/
def eachLine (tell : List String → String → String) : List String → List String → List String
  | _, [] => []
  | earlier, line :: rest => tell earlier line :: eachLine tell (earlier ++ [line]) rest

/-- What a session answers to lines. -/
def answers (s : Session) : List String → String
  | [] => ""
  | line :: rest => (s.handleLine line).2.text ++ (s.after line).answers rest

/-- What many lines show, line after line. -/
theorem Tracks.foldl (h : Tracks options earlier s) (lines : List String) (id : HeapId)
    (heap : Heap) :
    (lines.foldl Session.after s).machine.output.written =
        s.machine.output.written ++ (lines.filter isExpression).flatMap (fun line =>
          ((Machine.new id options).interpret line).1.output.written.toList) ∧
      (lines.foldl Session.after s).machine.journal.reports =
        s.machine.journal.reports ++
          String.join (eachLine (reported (.new id options)) earlier lines) ∧
      s.answers lines = String.join (eachLine (answered id heap) earlier lines) := by
  induction lines generalizing earlier s with
  | nil => exact ⟨by simp, String.append_empty.symm, rfl⟩
  | cons line lines ih =>
    obtain ⟨hwritten, hreports, hanswer⟩ := h.shows line id heap
    obtain ⟨hwrittens, hreportss, hanswers⟩ := ih (h.after line)
    rw [List.foldl_cons, hwrittens, hreportss, hwritten, hreports, answers, hanswer, hanswers,
      eachLine, eachLine, String.join_cons, String.join_cons]
    refine ⟨?_, String.append_assoc, rfl⟩
    rw [List.filter_cons, printed, ← Array.toList_inj]
    split <;> simp

end Tracks

/-- **A session replays as independent lines.** What it prints is what its expressions print on a new
machine with the same options, one after the other; what it reports is what they report there, with
the diagnostic of the last one again wherever a listing is asked for in vain. Its answers depend on
the lines before them alone, and a listing is one of a compiled line in any company. Only expressions
touch the stack or the heap, and only a first word ends a session. -/
theorem replay_lines (m : Machine) (hroom : m.output.room = none) (lines : List String)
    (id : HeapId) (heap : Heap) :
    let s : Session := { machine := m }
    let last := lines.foldl after s
    let fresh := Machine.new id m.options
    last.machine.output.written = m.output.written ++ (lines.filter isExpression).flatMap
        (fun line => (fresh.interpret line).1.output.written.toList) ∧
      last.machine.journal.reports =
        m.journal.reports ++ String.join (eachLine (reported fresh) [] lines) ∧
      s.answers lines = String.join (eachLine (answered id heap) [] lines) ∧
      (∀ (s : Session) (line : String), isExpression line = false →
        (s.after line).machine.stack = s.machine.stack ∧
          (s.after line).machine.heap = s.machine.heap) ∧
      ∀ (s : Session) (line : String), (s.handleLine line).2.quits = true ↔
        (wordsOf line).head? = some ":q" ∨ (wordsOf line).head? = some ":quit" := by
  intro s last fresh
  obtain ⟨hwritten, hreports, hanswers⟩ := (tracks_new hroom).foldl lines id heap
  refine ⟨hwritten, hreports, hanswers, ?_, ?_⟩
  · intro s line hline
    have hrun : request line ≠ .run := by
      rw [Ne, request_eq_run_iff, hline]
      exact Bool.false_ne_true
    obtain ⟨hstack, hheap, -⟩ := s.obey_keeps line hrun
    rw [after, handleLine_eq_obey]
    exact ⟨hstack, hheap⟩
  · intro s line
    rw [handleLine_eq_obey, obey_quits, request_eq_quit_iff]

/-- A session of lines that run, fail or do not compile, and of requests between them. -/
theorem replay_lines_script :
    let s : Session := { machine := .new ⟨0⟩ {} }
    let lines := ["\"a\" + \"b\"", " :time on", ":disasm", "(", ":disasm", ":time", "-nil", ":q"]
    let last := lines.foldl after s
    s.machine.output.room = none ∧
      last.machine.output.written = #[97, 98, 10] ∧
      last.machine.journal.reports =
        "[line 1] Error at end: Expect expression.\n[line 1] Error at end: Expect expression.\n" ++
          "Operand must be a number.\n[line 1] in script\n" ∧
      s.answers lines = "time -> on\n== <repl> ==\n" ++
        "0000    1 OP_CONSTANT         0 'a'\n0002    | OP_CONSTANT         1 'b'\n" ++
        "0004    | OP_ADD\n0005    | OP_RETURN\ntime = on\n" := by
  intro s lines last
  obtain ⟨hwritten, hreports, hanswers, -, -⟩ :=
    replay_lines (.new ⟨0⟩ {}) rfl lines ⟨7⟩ { id := ⟨9⟩ }
  refine ⟨rfl, ?_, ?_, ?_⟩
  · rw [hwritten]
    decide +kernel
  · rw [hreports]
    decide +kernel
  · rw [hanswers]
    decide +kernel

end Session

end ExprMachine
