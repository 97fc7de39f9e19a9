import Breakthrough.Proofs.Agents
import Breakthrough.Proofs.Conservation
import Breakthrough.Proofs.Endings
import Breakthrough.Session

/-!
# What a session does with its input

A session reads turns, plays the opponent's moves and answers them. The relation `Course` says, without the
player, the log or the output, which rounds can be played on a list of turns and how they end. A session with a
fit player follows it (`serveAll_course`): its position is the one that the moves of the rounds lead to, every
one of them legal, and its output has the answers, each on its line (`run_faithful`).
-/

namespace Breakthrough

/-! ## Reading turns -/

variable {memory : Memory}

namespace TurnReader

/-- Reading a turn takes a line at least. -/
theorem length_lt_of_read {r : TurnReader} {lines rest : List Line} {turn : Turn}
    (h : r.read memory lines = (.ok (some turn), rest)) : rest.length < lines.length := by
  induction lines generalizing r with
  | nil => cases r <;> cases h
  | cons line lines ih =>
    rw [read] at h
    rw [List.length_cons]
    split at h
    · cases h
    · exact Nat.lt_succ_of_lt (ih h)
    · cases h
      exact Nat.lt_succ_self _

/-- Where there is no further turn, the whole input has been read. -/
theorem eq_nil_of_read {r : TurnReader} {lines rest : List Line} (h : r.read memory lines = (.ok none, rest)) :
    rest = [] := by
  induction lines generalizing r with
  | nil =>
    cases r with
    | start => cases h; rfl
    | replied => cases h
    | listing => cases h
  | cons line lines ih =>
    rw [read] at h
    split at h
    · cases h
    · exact ih h
    · cases h

end TurnReader

/-- Turns are read up to the end of the input, unless one cannot be read. -/
theorem readTurns_rest {fuel : Nat} {lines : List Line} (hfuel : lines.length < fuel)
    (h : (readTurns memory fuel lines).2.1 = none) : (readTurns memory fuel lines).2.2 = [] := by
  induction fuel generalizing lines with
  | zero => cases hfuel
  | succ fuel ih =>
    rw [readTurns] at h ⊢
    split at h
    · cases h
    · rename_i hread
      exact TurnReader.eq_nil_of_read hread
    · rename_i hread
      have hlt := TurnReader.length_lt_of_read hread
      exact ih (by omega) h

/-! ## Rounds -/

/-- A turn as it was played: the opponent's move and our answer, if there are any. -/
structure Round where
  reply : Option Move
  answer : Option Move
  deriving DecidableEq, Repr

/-- The moves of a round in the order in which they are played. -/
def Round.moves (r : Round) : List Move := r.reply.toList ++ r.answer.toList

namespace Session

open Position

/-- The rounds that turns lead to from a position, if `failure?` says why no further turn can be read: where they
end, and whether with a failure. -/
inductive Course (failure? : Option Failure) :
    Position → List Turn → List Round → Position → Except Failure Unit → Prop
  /-- The input is over. -/
  | ended (p : Position) : failure? = none → Course failure? p [] [] p (.ok ())
  /-- The next turn cannot be read. -/
  | unread (p : Position) (e : Failure) : failure? = some e → Course failure? p [] [] p (.error e)
  /-- The opponent's move is not legal: nothing happens. -/
  | illegal {p : Position} {turn : Turn} {m : Move} (turns : List Turn) :
      turn.reply = some m → p.isLegal m = false →
      Course failure? p (turn :: turns) [] p (.error (.illegalReply m p.ply))
  /-- The game is over: there is no answer. -/
  | lost {p : Position} {turn : Turn} (turns : List Turn) :
      p.isLegalLine turn.reply.toList = true → (turn.reply.toList.foldl advance p).isLost = true →
      Course failure? p (turn :: turns) [⟨turn.reply, none⟩] (turn.reply.toList.foldl advance p) (.ok ())
  /-- The opponent's move is answered and the next turn is read. -/
  | answered {p q : Position} {turn : Turn} {turns : List Turn} {m : Move} {rounds : List Round}
      {result : Except Failure Unit} :
      p.isLegalLine turn.reply.toList = true → (turn.reply.toList.foldl advance p).isLegal m = true →
      Course failure? ((turn.reply.toList.foldl advance p).advance m) turns rounds q result →
      Course failure? p (turn :: turns) (⟨turn.reply, some m⟩ :: rounds) q result

namespace Course

variable {failure? : Option Failure} {p q : Position} {turns : List Turn} {rounds : List Round}
  {result : Except Failure Unit}

theorem legal (h : Course failure? p turns rounds q result) :
    p.isLegalLine (rounds.flatMap Round.moves) = true := by
  induction h with
  | ended => rfl
  | unread => rfl
  | illegal => rfl
  | lost _ hreply => simpa [Round.moves] using hreply
  | answered hreply hm _ ih =>
    rw [List.flatMap_cons, Round.moves, List.append_assoc, isLegalLine_append, hreply, Bool.true_and,
      Option.toList_some, List.singleton_append, isLegalLine, hm, Bool.true_and]
    exact ih

theorem position_eq (h : Course failure? p turns rounds q result) :
    q = (rounds.flatMap Round.moves).foldl advance p := by
  induction h with
  | ended => rfl
  | unread => rfl
  | illegal => rfl
  | lost => simp [Round.moves]
  | answered _ _ _ ih =>
    rw [List.flatMap_cons, Round.moves, List.append_assoc, List.foldl_append]
    exact ih

/-- The rounds are those of the first turns, in order. -/
theorem replies_eq (h : Course failure? p turns rounds q result) :
    rounds.map Round.reply = (turns.take rounds.length).map Turn.reply := by
  induction h with
  | ended => rfl
  | unread => rfl
  | illegal => rfl
  | lost => rfl
  | answered _ _ _ ih => rw [List.map_cons, ih, List.length_cons, List.take_succ_cons, List.map_cons]

/-- Only the last round can be without an answer, and then the game is over. -/
theorem of_answer_eq_none (h : Course failure? p turns rounds q result) {before after : List Round} {r : Round}
    (hrounds : rounds = before ++ r :: after) (hr : r.answer = none) :
    after = [] ∧ q.isLost = true ∧ result = .ok () := by
  induction h generalizing before with
  | ended => simp at hrounds
  | unread => simp at hrounds
  | illegal => simp at hrounds
  | lost _ _ hlost =>
    have hafter : after = [] := by
      have hlength := congrArg List.length hrounds
      simp only [List.length_append, List.length_cons, List.length_nil] at hlength
      exact List.eq_nil_of_length_eq_zero (by omega)
    exact ⟨hafter, hlost, rfl⟩
  | answered _ _ _ ih =>
    cases before with
    | nil =>
      rw [List.nil_append, List.cons.injEq] at hrounds
      rw [← hrounds.1] at hr
      cases hr
    | cons first before =>
      rw [List.cons_append, List.cons.injEq] at hrounds
      exact ih hrounds.2

/-- Rounds end with the game, with the input, with a turn that cannot be read or with an illegal move. -/
theorem ending (h : Course failure? p turns rounds q result) :
    (result = .ok () ∧ ((∃ r ∈ rounds, r.answer = none) ∨ rounds.length = turns.length ∧ failure? = none)) ∨
    (∃ e, result = .error e ∧ rounds.length = turns.length ∧ failure? = some e) ∨
    ∃ m, turns[rounds.length]?.bind Turn.reply = some m ∧ q.isLegal m = false ∧
      result = .error (.illegalReply m q.ply) := by
  induction h with
  | ended p hnone => exact .inl ⟨rfl, .inr ⟨rfl, hnone⟩⟩
  | unread p e hsome => exact .inr (.inl ⟨e, rfl, rfl, hsome⟩)
  | @illegal p turn m turns hreply hm => exact .inr (.inr ⟨m, hreply, hm, rfl⟩)
  | lost => exact .inl ⟨rfl, .inl ⟨_, List.mem_singleton_self _, rfl⟩⟩
  | answered _ _ _ ih =>
    rcases ih with ⟨hok, ⟨r, hr, hnone⟩ | ⟨hlength, hnone⟩⟩ | ⟨e, herror, hlength, hsome⟩ | ⟨m, hm⟩
    · exact .inl ⟨hok, .inl ⟨r, List.mem_cons_of_mem _ hr, hnone⟩⟩
    · exact .inl ⟨hok, .inr ⟨congrArg Nat.succ hlength, hnone⟩⟩
    · exact .inr (.inl ⟨e, herror, congrArg Nat.succ hlength, hsome⟩)
    · exact .inr (.inr ⟨m, hm⟩)

end Course

/-! ## One turn -/

variable {S : Position → Prop} {p : Position}

/-- In a game the opponent's move is refused for being illegal only. -/
theorem receive_cases (h : p.Game) (reply : Option Move) :
    (∃ m, reply = some m ∧ p.isLegal m = false ∧ receive p reply = (.error (.illegalReply m p.ply), p)) ∨
    (p.isLegalLine reply.toList = true ∧ receive p reply = (.ok (), reply.toList.foldl advance p)) := by
  cases reply with
  | none => exact .inr ⟨rfl, rfl⟩
  | some m =>
    cases hm : p.isLegal m with
    | false => exact .inl ⟨m, rfl, hm, by simp [receive, hm]⟩
    | true =>
      refine .inr ⟨by simp [isLegalLine, hm], ?_⟩
      simp [receive, hm, (refusal?_eq_none_iff p m).2 (h.accepts hm)]

/-- Who is asked for a move in a turn, and where: nobody if the opponent's move is refused or ends the game. -/
def askedIn (s : Session) (turn : Turn) : List (Player × Position) :=
  match receive s.position turn.reply with
  | (.error _, _) => []
  | (.ok (), p) => if p.isLost then [] else [(s.player, p)]

/-- Asking a fit player without a file to write finds a legal move and changes nothing but the player. -/
theorem ask_of_game (s : Session) (h : s.position.Game) (hlost : s.position.isLost = false)
    (hdump : s.settings.dumpTree = false) (hfree : CollisionFree S) (hfit : s.player.Fit S)
    (hstays : s.player.StaysIn S s.position) :
    ∃ m log player, s.ask = (.ok ⟨m, none⟩, log, { s with player }) ∧ s.position.isLegal m = true ∧
      (s.player.choose s.position).1 = .ok m ∧ player.Fit S := by
  obtain ⟨m, log, player, hchoose, hm, hfit'⟩ := s.player.choose_of_game h hlost hfree hfit hstays
  refine ⟨m, log, player, ?_, hm, by rw [hchoose], hfit'⟩
  simp only [ask, hchoose, hdump]

/-- A turn fails, ends the game or is answered. -/
theorem serve_cases (s : Session) (o : Surroundings) (turn : Turn) (h : s.position.Game)
    (hdump : s.settings.dumpTree = false) (hfault : o.fault? = none) (hfree : CollisionFree S)
    (hfit : s.player.Fit S) (hstays : ∀ c ∈ s.askedIn turn, c.1.StaysIn S c.2) :
    let q := turn.reply.toList.foldl advance s.position
    (∃ m, turn.reply = some m ∧ s.position.isLegal m = false ∧ s.askedIn turn = [] ∧
      s.serve o turn = (.error (.illegalReply m s.position.ply), [], s, o)) ∨
    (s.position.isLegalLine turn.reply.toList = true ∧ q.isLost = true ∧ s.askedIn turn = [] ∧
      ∃ log, s.serve o turn = (.ok false, log, { s with position := q }, o)) ∨
    (s.position.isLegalLine turn.reply.toList = true ∧ s.askedIn turn = [(s.player, q)] ∧
      ∃ m log s' o', q.isLegal m = true ∧ (s.player.choose q).1 = .ok m ∧
        s.serve o turn = (.ok true, log, s', o') ∧ s'.settings = s.settings ∧ s'.player.Fit S ∧
        s'.position = q.advance m ∧ s'.moves = s.moves + 1 ∧
        o'.fault? = none ∧ o'.output = (m.text ++ "\n") :: o.output) := by
  intro q
  rcases receive_cases h turn.reply with ⟨m, hreply, hm, hreceive⟩ | ⟨hlegal, hreceive⟩
  · refine .inl ⟨m, hreply, hm, ?_, ?_⟩
    · simp only [askedIn, hreceive]
    · simp only [serve, think, hreceive]
  have hq : q.Game := h.foldl_advance hlegal
  cases hlost : q.isLost with
  | true =>
    refine .inr (.inl ⟨hlegal, rfl, ?_, (s.serve o turn).2.1, ?_⟩)
    · simp only [askedIn, hreceive, q, hlost, if_true]
    · simp only [serve, think, hreceive, q, hlost, if_true]
  | false =>
    have hasked : s.askedIn turn = [(s.player, q)] := by
      simp only [askedIn, hreceive, q, hlost, Bool.false_eq_true, if_false]
    rw [hasked, List.forall_mem_singleton] at hstays
    obtain ⟨m, log, player, hask, hm, hchoose, hfit'⟩ :=
      ask_of_game { s with position := q } hq hlost hdump hfree hfit hstays
    have hrefusal := (refusal?_eq_none_iff q m).2 (hq.accepts hm)
    refine .inr (.inr ⟨hlegal, hasked, m, (s.serve o turn).2.1, ⟨s.settings, player, q.advance m, s.moves + 1⟩,
      { o with output := (m.text ++ "\n") :: o.output }, hm, hchoose, ?_, rfl, hfit', rfl, rfl, hfault, rfl⟩)
    simp only [serve, think, hreceive, q, hlost, Bool.false_eq_true, if_false, hask, Except.map, Answer.store,
      Surroundings.send, hfault, commit, hrefusal]

/-! ## Every turn -/

/-- Who is asked for a move while turns are served, and where. -/
def asked (memory : Memory) : (fuel : Nat) → Session → Surroundings → List Line → List (Player × Position)
  | 0, _, _, _ => []
  | fuel + 1, s, o, lines =>
    match readTurn memory lines with
    | (.error _, _) => []
    | (.ok none, _) => []
    | (.ok (some turn), lines) =>
      s.askedIn turn ++
        match s.serve o turn with
        | (.ok true, _, s, o) => asked memory fuel s o lines
        | _ => []

/-- Nobody is asked after an illegal move. -/
theorem asked_of_illegal {s : Session} {o : Surroundings} {lines rest : List Line} {turn : Turn} {m : Move}
    (hread : readTurn memory lines = (.ok (some turn), rest)) (hreply : turn.reply = some m)
    (hm : s.position.isLegal m = false) (fuel : Nat) : asked memory fuel s o lines = [] := by
  cases fuel with
  | zero => rfl
  | succ fuel => simp [asked, hread, askedIn, serve, think, receive, hreply, hm]

/-- What a run of turns leaves behind: the rounds of a course, with the answers counted and written, each being
the choice of the player that was asked for it. -/
structure Records (failure? : Option Failure) (turns : List Turn) (asked : List (Player × Position))
    (s : Session) (o : Surroundings) (rounds : List Round)
    (r : Except Failure Unit × List LogLine × Session × Surroundings) : Prop where
  course : Course failure? s.position turns rounds r.2.2.1.position r.1
  moves : r.2.2.1.moves = s.moves + (rounds.filterMap Round.answer).length
  output : r.2.2.2.output.reverse =
    o.output.reverse ++ (rounds.filterMap Round.answer).map fun m => m.text ++ "\n"
  choices : asked.map (fun c => (c.1.choose c.2).1) = (rounds.filterMap Round.answer).map .ok

/-- A turn that is answered comes before what the turns after it leave behind. -/
theorem Records.answered {failure? : Option Failure} {turn : Turn} {turns : List Turn}
    {asked : List (Player × Position)} {s s' : Session} {o o' : Surroundings} {rounds : List Round} {m : Move}
    {r : Except Failure Unit × List LogLine × Session × Surroundings}
    (h : Records failure? turns asked s' o' rounds r) (hlegal : s.position.isLegalLine turn.reply.toList = true)
    (hm : (turn.reply.toList.foldl advance s.position).isLegal m = true)
    (hchoose : (s.player.choose (turn.reply.toList.foldl advance s.position)).1 = .ok m)
    (hposition : s'.position = (turn.reply.toList.foldl advance s.position).advance m)
    (hmoves : s'.moves = s.moves + 1) (houtput : o'.output = (m.text ++ "\n") :: o.output) (log : List LogLine) :
    Records failure? (turn :: turns) ([(s.player, turn.reply.toList.foldl advance s.position)] ++ asked) s o
      (⟨turn.reply, some m⟩ :: rounds) (r.1, log ++ r.2.1, r.2.2) := by
  have hanswers : (Round.mk turn.reply (some m) :: rounds).filterMap Round.answer =
    m :: rounds.filterMap Round.answer := rfl
  refine ⟨.answered hlegal hm (hposition ▸ h.course), ?_, ?_, ?_⟩
  · rw [h.moves, hmoves, hanswers, List.length_cons]
    omega
  · rw [h.output, houtput, hanswers, List.map_cons, List.reverse_cons, List.append_assoc]
    rfl
  · rw [List.map_append, h.choices, hanswers, List.map_singleton, hchoose]
    rfl

/-- **A session with a fit player follows the course of the turns that it reads.** -/
theorem serveAll_course (fuel : Nat) (s : Session) (o : Surroundings) (lines : List Line)
    (hfuel : lines.length < fuel) (h : s.position.Game) (hdump : s.settings.dumpTree = false)
    (hfault : o.fault? = none) (hfree : CollisionFree S) (hfit : s.player.Fit S)
    (hstays : ∀ c ∈ asked memory fuel s o lines, c.1.StaysIn S c.2) :
    ∃ rounds, Records (readTurns memory fuel lines).2.1 (readTurns memory fuel lines).1
      (asked memory fuel s o lines) s o rounds (serveAll memory fuel s o lines) := by
  induction fuel generalizing s o lines with
  | zero => cases hfuel
  | succ fuel ih =>
    unfold readTurns asked serveAll
    unfold asked at hstays
    cases hread : readTurn memory lines with
    | mk result rest =>
      rw [hread] at hstays
      rcases result with e | _ | turn
      · exact ⟨[], .unread _ e rfl, rfl, (List.append_nil _).symm, rfl⟩
      · exact ⟨[], .ended _ rfl, rfl, (List.append_nil _).symm, rfl⟩
      simp only at hstays ⊢
      have hlt := TurnReader.length_lt_of_read hread
      rcases serve_cases s o turn h hdump hfault hfree hfit
        (fun c hc => hstays c (List.mem_append_left _ hc)) with
        ⟨m, hreply, hm, hasked, hserve⟩ | ⟨hlegal, hlost, hasked, log, hserve⟩ |
          ⟨hlegal, hasked, m, log, s', o', hm, hchoose, hserve, hsettings, hfit', hposition, hmoves, hfault',
            houtput⟩
      · rw [hasked, hserve]
        exact ⟨[], .illegal _ hreply hm, rfl, (List.append_nil _).symm, rfl⟩
      · rw [hasked, hserve]
        exact ⟨[⟨turn.reply, none⟩], .lost _ hlegal hlost, rfl, (List.append_nil _).symm, rfl⟩
      · rw [hserve] at hstays
        rw [hasked, hserve]
        obtain ⟨rounds, hrest⟩ := ih s' o' rest (by omega) (hposition ▸ (h.foldl_advance hlegal).step hm)
          (hsettings ▸ hdump) hfault' hfit' fun c hc => hstays c (List.mem_append_right _ hc)
        exact ⟨_, hrest.answered hlegal hm hchoose hposition hmoves houtput log⟩

/-- **Sessions are faithful.** A session from the start layout, with an output that never fails and no files to
write, reads any input on any machine. Its player is fit, and if it searches, no visit counter wraps and the
hashes tell the positions of a set apart that has all positions met. Then there are rounds, one for each turn that
it has served and with the opponent's move of that turn, such that

* their moves, one after the other, are legal and make up the history of the position at the end;
* their answers are what the player has chosen each time it was asked, and what has been written, each on its
  line;
* a round without an answer is the last one, and the game is over after it;
* the session ends with the game or with the input, and then the result is the number of lines written; or with a
  turn that cannot be read, or with a move of the opponent's that is not legal, and then after the round of the
  turn before it. -/
theorem run_faithful (memory : Memory) (keys : KeyTable) (settings : Settings) (player : Player) (files : FileTree)
    (input : List UInt8) (hdump : settings.dumpTree = false) (hfree : CollisionFree S) (hfit : player.Fit S)
    (hstays : ∀ c ∈ asked memory ((splitLines input).length + 1) ⟨settings, player, .startWith keys, 0⟩
      ⟨files, [], none⟩ (splitLines input), c.1.StaysIn S c.2) :
    let lines := splitLines input
    let s : Session := ⟨settings, player, .startWith keys, 0⟩
    let o : Surroundings := ⟨files, [], none⟩
    let turns := (readTurns memory (lines.length + 1) lines).1
    let failure? := (readTurns memory (lines.length + 1) lines).2.1
    let rest := (readTurns memory (lines.length + 1) lines).2.2
    let result := (s.run memory o input).1
    let position := (s.run memory o input).2.2.1.position
    let output := (s.run memory o input).2.2.2.output.reverse
    ∃ rounds : List Round,
      let moves := rounds.flatMap Round.moves
      let answers := rounds.filterMap Round.answer
      rounds.map Round.reply = (turns.take rounds.length).map Turn.reply ∧
      (startWith keys).isLegalLine moves = true ∧ position = moves.foldl advance (.startWith keys) ∧
      position.history.moves = moves ∧
      (asked memory (lines.length + 1) s o lines).map (fun c => (c.1.choose c.2).1) = answers.map .ok ∧
      output = answers.map (fun m => m.text ++ "\n") ∧
      (∀ before r after, rounds = before ++ r :: after → r.answer = none →
        after = [] ∧ position.isLost = true ∧ result = .ok output.length) ∧
      ((result = .ok output.length ∧
          ((∃ r ∈ rounds, r.answer = none) ∨ rounds.length = turns.length ∧ failure? = none ∧ rest = [])) ∨
        (∃ e, result = .error e ∧ rounds.length = turns.length ∧ failure? = some e) ∨
        ∃ m, turns[rounds.length]?.bind Turn.reply = some m ∧ position.isLegal m = false ∧
          result = .error (.illegalReply m position.ply)) := by
  intro lines s o turns failure? rest result position output
  obtain ⟨rounds, hcourse, hmoves, houtput, hchoices⟩ := serveAll_course (lines.length + 1) s o lines
    (Nat.lt_succ_self _) (.start keys) hdump rfl hfree hfit hstays
  have hlength : output.length = (serveAll memory (lines.length + 1) s o lines).2.2.1.moves := by
    have hwritten := congrArg List.length houtput
    rw [List.length_append, List.length_map] at hwritten
    exact hwritten.trans hmoves.symm
  have hresult : (serveAll memory (lines.length + 1) s o lines).1 = .ok () → result = .ok output.length := by
    intro hok
    rw [hlength]
    exact congrArg (Except.map fun _ => _) hok
  have hposition : position = (rounds.flatMap Round.moves).foldl advance (.startWith keys) := hcourse.position_eq
  refine ⟨rounds, hcourse.replies_eq, hcourse.legal, hposition, ?_, hchoices, houtput, ?_, ?_⟩
  · rw [hposition, moves_foldl_advance, moves_of_depth_eq_zero (depth_startWith keys), List.nil_append]
  · intro before r after hrounds hnone
    obtain ⟨hafter, hlost, hok⟩ := hcourse.of_answer_eq_none hrounds hnone
    exact ⟨hafter, hlost, hresult hok⟩
  · rcases hcourse.ending with ⟨hok, hend⟩ | ⟨e, herror, hend⟩ | ⟨m, hreply, hm, herror⟩
    · refine .inl ⟨hresult hok, hend.imp_right ?_⟩
      rintro ⟨hall, hnone⟩
      exact ⟨hall, hnone, readTurns_rest (Nat.lt_succ_self _) hnone⟩
    · exact .inr (.inl ⟨e, congrArg (Except.map fun _ => _) herror, hend⟩)
    · exact .inr (.inr ⟨m, hreply, hm, congrArg (Except.map fun _ => _) herror⟩)

/-- A search of one iteration makes the first move. The opponent answers `a1a2` with our own pawn, and the session
fails with one line written and one move played. -/
theorem run_faithful_illegal :
    let settings : Settings := { Settings.default with iterations := 1 }
    let s : Session := ⟨settings, .new .search settings none (.ofSeed 0), .bitStart, 0⟩
    let input : List UInt8 := [78, 111, 110, 101, 10, 48, 10, 97, 49, 97, 50, 10, 48, 10]
    let r := s.run .ample ⟨.empty, [], none⟩ input
    ∃ m, bitStart.isLegal m = true ∧ r.1 = .error (.illegalReply ⟨⟨0⟩, ⟨8⟩⟩ 1) ∧
      r.2.2.1.position = bitStart.advance m ∧ r.2.2.2.output = [m.text ++ "\n"] := by
  intro settings s input r
  let o : Surroundings := ⟨.empty, [], none⟩
  let back : Move := ⟨⟨0⟩, ⟨8⟩⟩
  have hread : readTurn .ample (splitLines input) = (.ok (some ⟨none, []⟩), [[97, 49, 97, 50, 10], [48, 10]]) := rfl
  have hread' : readTurn .ample [[97, 49, 97, 50, 10], [48, 10]] = (.ok (some ⟨some back, []⟩), []) := rfl
  have hturns : readTurns .ample ((splitLines input).length + 1) (splitLines input) =
      ([⟨none, []⟩, ⟨some back, []⟩], none, []) := rfl
  have hback : ∀ m, bitStart.isLegal m = true → (bitStart.advance m).isLegal back = false := by
    intro m hm
    have hall : ∀ m ∈ bitStart.moves, (bitStart.advance m).isLegal back = false := by decide +kernel
    exact hall m ((game_bitStart.consistent.isLegal_iff m).1 hm).2
  have hlost : bitStart.isLost = false := by decide +kernel
  obtain ⟨hwrap, hmet, _⟩ := Search.Engine.choose_bitStart
    (e := .new { settings.search with seed := none } (ChaCha.ofSeed 0) .empty) rfl rfl
  have hfit : s.player.Fit NearBitStart := Search.Graph.sound_empty
  have hfirst : ∀ c ∈ s.askedIn ⟨none, []⟩, c.1.StaysIn NearBitStart c.2 := by
    simp only [askedIn, receive, s, hlost, Bool.false_eq_true, if_false, List.forall_mem_singleton]
    exact ⟨hwrap, hmet⟩
  have hstays : ∀ c ∈ asked .ample 5 s o (splitLines input), c.1.StaysIn NearBitStart c.2 := by
    rw [asked, hread]
    simp only
    rcases serve_cases s o ⟨none, []⟩ game_bitStart rfl rfl collisionFree_nearBitStart hfit hfirst with
      ⟨m, hreply, _⟩ | ⟨_, hover, _⟩ | ⟨_, _, m, log, s', o', hm, _, hserve, _, _, hposition, _⟩
    · cases hreply
    · exact absurd hover (by simpa using hlost)
    · have hnobody := asked_of_illegal (s := s') (o := o') hread' rfl (hposition ▸ hback m hm) 4
      rw [hserve]
      simp only [hnobody, List.append_nil]
      exact hfirst
  obtain ⟨rounds, hreplies, hlegal, hposition, _, _, houtput, hnone, hend⟩ :=
    run_faithful .ample bitStart.keys settings s.player .empty input rfl collisionFree_nearBitStart hfit hstays
  change bitStart.isLegalLine _ = true at hlegal
  simp only [hturns] at hreplies hend
  match rounds with
  | [] => simp at hend
  | [⟨reply, none⟩] =>
    obtain ⟨_, hover, _⟩ := hnone [] _ [] rfl rfl
    obtain rfl : reply = none := by simpa using hreplies
    rw [hposition] at hover
    cases hover.symm.trans hlost
  | [⟨reply, some m⟩] =>
    obtain rfl : reply = none := by simpa using hreplies
    rcases hend with ⟨_, hend⟩ | ⟨e, _, _, he⟩ | ⟨m', hm', _, herror⟩
    · simp at hend
    · cases he
    · cases hm'
      refine ⟨m, by simpa [Round.moves, isLegalLine] using hlegal, ?_, hposition, ?_⟩
      · rw [hposition] at herror
        exact herror
      · exact List.reverse_eq_iff.1 houtput
  | ⟨reply, none⟩ :: r :: rounds => cases (hnone [] _ (r :: rounds) rfl rfl).1
  | ⟨reply, some m⟩ :: ⟨reply', answer'⟩ :: rounds =>
    exfalso
    simp only [List.map_cons, List.length_cons, List.take_succ_cons, List.cons.injEq] at hreplies
    obtain ⟨rfl, rfl, _⟩ := hreplies
    simp only [List.flatMap_cons, Round.moves, Option.toList_none, Option.toList_some, List.nil_append,
      List.cons_append, isLegalLine, Bool.and_eq_true] at hlegal
    rw [hback m hlegal.1] at hlegal
    cases hlegal.2.1

end Session

end Breakthrough
