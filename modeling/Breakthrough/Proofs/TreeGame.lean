import Breakthrough.TreeGame
import Breakthrough.Proofs.Arena
import Breakthrough.Proofs.DumpText
import Breakthrough.Proofs.Dumps
import Breakthrough.Proofs.Files

/-!
# Games that are written down

White's searches are written to one file for each of its moves. The moves are those of a game of the arena between a
search and a random player (`Arena.asked`): a turn cannot fail as long as hashes tell the positions apart that the
search meets (`exists_continues`). What it adds to the files is `Recorded.step`, and the whole game follows by
induction. Files that were written stay as they are, because no two of them share a place.
-/

namespace Breakthrough

open Position Search

namespace TreeGame

variable {S : Position → Prop} {settings : Settings} {g g' : TreeGame} {answer : Answer} {lines : List LogLine}
  {room : Nat} {files : FileTree} {moves : List Move}

def player (g : TreeGame) : Color → Player
  | .white => .search g.engine
  | .black => .random g.rival

/-- Who is asked for a move in a whole game, and where. -/
def asked (settings : Settings) (fresh : FreshKeys) : List (Player × Position) :=
  Arena.asked maxPly (new settings fresh).player .start

/-- The paths of the files for White's first `n` moves. -/
def paths (settings : Settings) (n : Nat) : List String := (List.range n).map fun i => settings.treePath (2 * i)

/-! ## One turn -/

/-- The game after an answer whose file has been written. -/
def played (g : TreeGame) (answer : Answer) : TreeGame :=
  { g with
    position := g.position.advance answer.move
    written := (answer.file?.map TreeFile.path).toList ++ g.written }

theorem commit_of_isLegal (h : g.position.Game) (hm : g.position.isLegal answer.move = true) :
    g.commit answer = (.ok (), g.played answer) := by
  simp only [commit, (refusal?_eq_none_iff _ _).2 (h.accepts hm), played]

/-- A turn leads from `g` to `g'` by an answer whose file is written in between. It is also the turn of the player
of the side to move in a game of the arena. -/
structure Continues (g : TreeGame) (answer : Answer) (lines : List LogLine) (g' : TreeGame) : Prop where
  notLost : g.position.isLost = false
  found : ∃ g₁, g.think = (.ok answer, lines, g₁) ∧ g₁.commit answer = (.ok (), g')
  position : g'.position = g.position.advance answer.move
  written : g'.written = (answer.file?.map TreeFile.path).toList ++ g.written
  chosen : ((g.player g.position.side).choose g.position).1 = .ok answer.move
  asked : ∀ room, Arena.asked (room + 1) g.player g.position =
    (g.player g.position.side, g.position) :: Arena.asked room g'.player g'.position

theorem Continues.playOn (h : g.Continues answer lines g') {stored : List LogLine} {files' : FileTree}
    (hstore : answer.store files = (.ok (), stored, files')) (log : List LogLine) :
    playOn (room + 1) log g files = playOn room (log ++ lines ++ stored) g' files' := by
  obtain ⟨g₁, hthink, hcommit⟩ := h.found
  conv_lhs => unfold TreeGame.playOn
  simp only [h.notLost, hthink, hstore, hcommit, Bool.false_eq_true, if_false]

/-- What a game needs to go on. -/
structure Fit (S : Position → Prop) (settings : Settings) (g : TreeGame) : Prop where
  settings_eq : g.settings = settings
  config : g.engine.config = settings.search
  game : g.position.Game
  keys : g.position.keys = .shared
  kept : g.engine.Kept (Keyed S .shared)

theorem fit_new (S : Position → Prop) (settings : Settings) (fresh : FreshKeys) : (new settings fresh).Fit S settings :=
  ⟨rfl, rfl, .start .shared, rfl, Engine.kept_of_empty rfl⟩

/-- An answer of White has a file about the position, one of Black has none. -/
structure Answers (settings : Settings) (p : Position) (answer : Answer) : Prop where
  isLegal : p.isLegal answer.move = true
  white : p.side = .white → ∃ dump, answer.file? = some ⟨settings.treePath p.ply, .ok dump⟩ ∧
    dump.Shows p settings.iterations settings.maxNodes
  black : p.side = .black → answer.file? = none

theorem continues_of_choose {found : TreeGame} (h : g.position.Game) (hlost : g.position.isLost = false)
    (hm : g.position.isLegal answer.move = true) (hthink : g.think = (.ok answer, lines, found))
    (hposition : found.position = g.position) (hwritten : found.written = g.written)
    (hchoose : (g.player g.position.side).choose g.position =
      (.ok answer.move, lines, found.player g.position.side, g.position))
    (hother : ∀ c, c ≠ g.position.side → found.player c = g.player c) :
    g.Continues answer lines (found.played answer) := by
  refine ⟨hlost, ⟨found, hthink, commit_of_isLegal (hposition ▸ h) (hposition ▸ hm)⟩, ?_, ?_, ?_, fun room => ?_⟩
  · rw [played, hposition]
  · rw [played, hwritten]
  · rw [hchoose]
  rw [Arena.asked_of_accepted hlost hchoose ((refusal?_eq_none_iff _ _).2 (h.accepts hm))]
  have hplayers : Function.update g.player g.position.side (found.player g.position.side) = found.player := by
    funext c
    by_cases hc : c = g.position.side
    · rw [hc, Function.update_self]
    · rw [Function.update_of_ne hc, hother c hc]
  rw [hplayers, ← hposition]
  rfl

/-- A fit game continues and stays fit. -/
theorem exists_continues (hg : g.Fit S settings) (hlost : g.position.isLost = false) (hfree : CollisionFree S)
    (hnodes : 0 < settings.maxNodes) (hstays : (g.player g.position.side).StaysIn S g.position) :
    ∃ answer lines g', g.Continues answer lines g' ∧ g'.Fit S settings ∧ Answers settings g.position answer := by
  obtain ⟨rfl, hconfig, hgame, hkeys, hkept⟩ := hg
  cases hside : g.position.side with
  | white =>
    rw [hside] at hstays
    obtain ⟨hwrap, hmet⟩ := hstays
    have hmet' := (hkeys ▸ hkept).keyed_met hgame hfree hwrap hmet
    rw [hkeys] at hmet'
    obtain ⟨m, lines, e, hchoose, hm, hkept', hconfig', node, hnode, hvisits⟩ :=
      hkept.choose hgame hlost (hfree.keyed .shared) hwrap hmet'
    have hp : Keyed S .shared g.position := hmet' _ (by simp [Engine.met, hlost])
    obtain ⟨dump, hdump, hshows⟩ := hkept'.dump hgame hfree hp hnode hvisits hnodes
    rw [hconfig] at hconfig' hshows
    let answer : Answer := ⟨m, some ⟨g.settings.treePath g.position.ply, .ok dump⟩⟩
    let found : TreeGame := { g with engine := e }
    refine ⟨answer, lines, found.played answer, continues_of_choose hgame hlost hm ?_ rfl rfl ?_ ?_,
      ⟨rfl, hconfig', hgame.step hm, hkeys, hkept'⟩, ⟨hm, fun _ => ⟨dump, rfl, hshows⟩, fun h => ?_⟩⟩
    · simp only [think, hside, search, hchoose, TreeFile.of, hdump, answer, found]
    · simp only [hside, player, Player.choose, hchoose, answer, found]
    · rintro (_ | _) hc
      · exact absurd hside.symm hc
      · rfl
    · cases hside.symm.trans h
  | black =>
    obtain ⟨m, rival, hchoose, hm⟩ := g.rival.choose_of_game hgame hlost
    let found : TreeGame := { g with rival }
    refine ⟨⟨m, none⟩, [], found.played ⟨m, none⟩, continues_of_choose hgame hlost hm ?_ rfl rfl ?_ ?_,
      ⟨rfl, hconfig, hgame.step hm, hkeys, hkept⟩, ⟨hm, fun h => ?_, fun _ => rfl⟩⟩
    · simp only [think, hside, hchoose]
      rfl
    · simp only [hside, player, Player.choose, hchoose, found]
    · rintro (_ | _) hc
      · rfl
      · exact absurd hside.symm hc
    · cases hside.symm.trans h

/-! ## The files -/

theorem store_of_writable {path : String} {place : Place} (h : files.Writable path place) (dump : Dump Float) :
    ∃ stored, TreeFile.store ⟨path, .ok dump⟩ files =
      (.ok (), stored, (files.put place .empty).put place dump.text.toUTF8) := by
  simp only [TreeFile.store, h.write, (h.put place .empty).write]
  exact ⟨_, rfl⟩

/-- After these moves from the start, the file of White's move number `i` shows the position before it. -/
def Filed (settings : Settings) (files : FileTree) (moves : List Move) (i : Nat) : Prop :=
  ∃ place dump, files.Writable (settings.treePath (2 * i)) place ∧
    files.content? place = some (Dump.text dump).toUTF8 ∧
    dump.Shows ((moves.take (2 * i)).foldl advance .start) settings.iterations settings.maxNodes

theorem Filed.concat {i : Nat} (h : Filed settings files moves i) (hi : i < Color.white.turns moves.length)
    (m : Move) : Filed settings files (moves ++ [m]) i := by
  rw [Color.turns] at hi
  rw [Filed, List.take_append_of_le_length (by omega)]
  exact h

/-- Files of other plies are not touched. -/
theorem Filed.put {i n : Nat} {place : Place} (h : Filed settings files moves i)
    (hplace : files.Writable (settings.treePath n) place) (hn : 2 * i ≠ n) (bytes : ByteArray) :
    Filed settings (files.put place bytes) moves i := by
  obtain ⟨other, dump, hw, hcontent, hshows⟩ := h
  have hne : other ≠ place := by
    rintro rfl
    exact hn (settings.locate_treePath_injective hw.locate hplace.locate)
  refine ⟨other, dump, hw.put _ _, ?_, hshows⟩
  rw [FileTree.content?_put, if_neg hne, hcontent]

/-- After these moves from the start, the game has listed and written the files of White's moves. -/
structure Recorded (settings : Settings) (moves : List Move) (g : TreeGame) (files : FileTree) : Prop where
  legal : Position.start.isLegalLine moves = true
  position : g.position = moves.foldl advance .start
  written : g.written.reverse = paths settings (Color.white.turns moves.length)
  filed : ∀ i < Color.white.turns moves.length, Filed settings files moves i

theorem recorded_new (settings : Settings) (fresh : FreshKeys) (files : FileTree) :
    Recorded settings [] (new settings fresh) files :=
  ⟨rfl, rfl, rfl, fun i hi => absurd hi (Nat.not_lt_zero i)⟩

namespace Recorded

theorem ply_eq (h : Recorded settings moves g files) : g.position.ply = moves.length := by
  rw [h.position, ply_foldl_advance]
  exact Nat.zero_add _

theorem game (h : Recorded settings moves g files) : g.position.Game :=
  h.position ▸ (Game.start .shared).foldl_advance h.legal

theorem turns_concat (h : Recorded settings moves g files) (m : Move) :
    Color.white.turns (moves ++ [m]).length =
      Color.white.turns moves.length + if Color.white = g.position.side then 1 else 0 := by
  obtain ⟨keys, hline⟩ := h.game.line
  have hturns := hline.turns_advance m .white
  rw [ply_advance, h.ply_eq] at hturns
  rwa [List.length_append, List.length_singleton]

/-- White has moved every other time. -/
theorem two_mul_turns (h : Recorded settings moves g files) (hside : g.position.side = .white) :
    2 * Color.white.turns moves.length = g.position.ply := by
  obtain ⟨keys, hline⟩ := h.game.line
  have heven := hline.side_eq_of_start
  rw [hside] at heven
  rw [← h.ply_eq, Color.turns]
  split at heven
  · omega
  · cases heven

/-- A turn adds its file and leaves the others alone. -/
theorem step (h : Recorded settings moves g files) (hnext : g.Continues answer lines g')
    (hanswer : Answers settings g.position answer)
    (hwritable : g.position.side = .white → ∃ place, files.Writable (settings.treePath g.position.ply) place) :
    ∃ stored files', answer.store files = (.ok (), stored, files') ∧
      Recorded settings (moves ++ [answer.move]) g' files' ∧
      ∀ path place, files.Writable path place → files'.Writable path place := by
  have hturns := h.turns_concat answer.move
  have hlegal : Position.start.isLegalLine (moves ++ [answer.move]) = true := by
    rw [isLegalLine_append, h.legal, ← h.position, isLegalLine, hanswer.isLegal]
    rfl
  have hposition : g'.position = (moves ++ [answer.move]).foldl advance .start := by
    rw [List.foldl_append, ← h.position, hnext.position]
    rfl
  cases hside : g.position.side with
  | black =>
    rw [hside, if_neg (by decide)] at hturns
    refine ⟨[], files, ?_, ⟨hlegal, hposition, ?_, fun i hi => ?_⟩, fun _ _ => id⟩
    · rw [Answer.store, hanswer.black hside]
    · rw [hnext.written, hanswer.black hside, hturns]
      exact h.written
    · rw [hturns] at hi
      exact (h.filed i hi).concat hi answer.move
  | white =>
    rw [hside, if_pos rfl] at hturns
    have hply := h.two_mul_turns hside
    obtain ⟨dump, hfile, hshows⟩ := hanswer.white hside
    obtain ⟨place, hplace⟩ := hwritable hside
    obtain ⟨stored, hstore⟩ := store_of_writable hplace dump
    refine ⟨stored, (files.put place .empty).put place dump.text.toUTF8, ?_, ⟨hlegal, hposition, ?_, fun i hi => ?_⟩,
      fun _ _ hw => (hw.put _ _).put _ _⟩
    · rw [Answer.store, hfile]
      exact hstore
    · rw [hnext.written, hfile, hturns, paths, List.range_succ, List.map_append, List.map_singleton, hply, ← paths,
        ← h.written]
      exact List.reverse_cons
    · rw [hturns] at hi
      rcases Nat.lt_succ_iff_lt_or_eq.1 hi with hi | rfl
      · have hn : 2 * i ≠ g.position.ply := by omega
        exact (((h.filed i hi).put hplace hn _).put (hplace.put _ _) hn _).concat hi answer.move
      · rw [Filed, hply, h.ply_eq, List.take_left, ← h.position, ← h.ply_eq]
        refine ⟨place, dump, (hplace.put _ _).put _ _, ?_, hshows⟩
        rw [FileTree.content?_put, if_pos rfl]

end Recorded

/-! ## The whole game -/

/-- A fit game is played to its end, with everything recorded. -/
theorem playOn_of_fit {n : Nat} (hg : g.Fit S settings) (hrecorded : Recorded settings moves g files)
    (hroom : maxPly ≤ moves.length + room) (hfree : CollisionFree S) (hnodes : 0 < settings.maxNodes)
    (hstays : ∀ a ∈ Arena.asked room g.player g.position, a.1.StaysIn S a.2)
    (hn : n = moves.length + (Arena.asked room g.player g.position).length)
    (hwritable : ∀ i < Color.white.turns n, ∃ place, files.Writable (settings.treePath (2 * i)) place)
    (log : List LogLine) :
    ∃ rest log' g' files', playOn room log g files = (.ok (), log', g', files') ∧
      Recorded settings (moves ++ rest) g' files' ∧ g'.position.isLost = true ∧
      rest = Arena.answers (Arena.asked room g.player g.position) ∧
      rest.length = (Arena.asked room g.player g.position).length ∧
      ∀ j a, (Arena.asked room g.player g.position)[j]? = some a →
        a.2 = (rest.take j).foldl advance g.position := by
  induction room generalizing g moves files log with
  | zero =>
    have hdepth := hg.game.depth_lt
    rw [← hg.game.ply_eq, hrecorded.ply_eq] at hdepth
    omega
  | succ room ih =>
    cases hlost : g.position.isLost with
    | true =>
      have hend : playOn (room + 1) log g files = (.ok (), log, g, files) := by
        unfold playOn
        rw [if_pos hlost]
      rw [Arena.asked_of_isLost hlost]
      exact ⟨[], log, g, files, hend, by rwa [List.append_nil], hlost, rfl, rfl, nofun⟩
    | false =>
      obtain ⟨answer, lines, g₁, hnext, hg₁, hanswer⟩ :=
        exists_continues hg hlost hfree hnodes (hstays _ (Arena.mem_asked hlost))
      rw [hnext.asked] at hstays hn ⊢
      rw [List.length_cons] at hn
      have hfile : g.position.side = .white → ∃ place, files.Writable (settings.treePath g.position.ply) place := by
        intro hside
        have hply := hrecorded.two_mul_turns hside
        rw [← hply]
        refine hwritable _ ?_
        rw [hrecorded.ply_eq] at hply
        rw [Color.turns] at hply ⊢
        rw [Color.turns]
        omega
      obtain ⟨stored, files₁, hstore, hrecorded₁, hkeep⟩ := hrecorded.step hnext hanswer hfile
      have hlength₁ : (moves ++ [answer.move]).length = moves.length + 1 := List.length_append
      obtain ⟨rest, log', g', files', hplay, hrecorded', hlost', hanswers, hlength, hpositions⟩ :=
        ih hg₁ hrecorded₁ (by omega) (fun a ha => hstays a (List.mem_cons_of_mem _ ha)) (by omega)
          (fun i hi => (hwritable i hi).imp fun place => hkeep _ place) (log ++ lines ++ stored)
      refine ⟨answer.move :: rest, log', g', files', ?_, ?_, hlost', ?_, ?_, ?_⟩
      · rw [hnext.playOn hstore, hplay]
      · rwa [List.append_assoc] at hrecorded'
      · rw [Arena.answers, List.filterMap_cons, hnext.chosen, hanswers]
        rfl
      · rw [List.length_cons, List.length_cons, hlength]
      · intro j a hj
        cases j with
        | zero =>
          cases hj
          rfl
        | succ j =>
          rw [List.getElem?_cons_succ] at hj
          rw [hpositions j a hj, hnext.position]
          rfl

/-- **The files of a game.** Assume that the directory can be made and the files for White's moves can be written, that
no visit counter wraps, and that hashes tell the positions apart that White's searches meet. Then the game between the
search and the random player is played to its end by legal moves, the answers of those who are asked. The paths of one
file for each of White's moves are returned in order, all different. At the end each of these files holds the text of
the dump of the search for its move, and the text is read back as this dump: with the ply, the hash of the position
before the move as its root, one record at least and no more than allowed, and first that of the root, which has been
visited once more than there are iterations, or more often. -/
theorem run_writes_searches (settings : Settings) (fresh : FreshKeys) {S : Position → Prop} {files made : FileTree}
    (hnodes : 0 < settings.maxNodes) (hdir : TreeFile.makeDir settings files = (.ok (), made))
    (hwrite : ∀ i < ((asked settings fresh).length + 1) / 2,
      ∃ t, made.write (settings.treePath (2 * i)) .empty = .ok t)
    (hfree : CollisionFree S) (hstays : ∀ a ∈ asked settings fresh, a.1.StaysIn S a.2) :
    ∃ moves log files',
      run settings fresh files = (.ok (paths settings ((moves.length + 1) / 2)), log, files') ∧
      (paths settings ((moves.length + 1) / 2)).Nodup ∧
      Position.start.isLegalLine moves = true ∧ (moves.foldl advance .start).isLost = true ∧
      moves = Arena.answers (asked settings fresh) ∧ moves.length = (asked settings fresh).length ∧
      (∀ j a, (asked settings fresh)[j]? = some a → a.2 = (moves.take j).foldl advance .start) ∧
      log.getLast? = some (.info
        s!"Game over after {moves.length} plies, {(moves.foldl advance .start).side.opponent.text} wins") ∧
      ∀ i < (moves.length + 1) / 2, ∃ dump : Dump Float,
        files'.read (settings.treePath (2 * i)) = .ok dump.text.toUTF8 ∧ Dump.read? dump.text = some dump.bare ∧
        dump.ply = 2 * i ∧ dump.root = ((moves.take (2 * i)).foldl advance .start).hash ∧
        1 ≤ dump.nodes.length ∧ dump.nodes.length ≤ settings.maxNodes ∧
        ∃ r, dump.nodes.head? = some r ∧ r.key = dump.root ∧ settings.iterations + 1 ≤ r.visits.toNat := by
  have hwritable : ∀ i < Color.white.turns (asked settings fresh).length,
      ∃ place, made.Writable (settings.treePath (2 * i)) place := by
    intro i hi
    obtain ⟨t, ht⟩ := hwrite i hi
    exact FileTree.exists_writable ht
  obtain ⟨moves, log, g, files', hplay, hrecorded, hlost, hanswers, hlength, hpositions⟩ :=
    playOn_of_fit (fit_new S settings fresh) (recorded_new settings fresh made) (Nat.le_add_left _ _) hfree hnodes
      hstays (Nat.zero_add _).symm hwritable []
  rw [List.nil_append] at hrecorded
  refine ⟨moves, log ++ [g.endLine], files', ?_, ?_, hrecorded.legal, hrecorded.position ▸ hlost, hanswers, hlength,
    hpositions, ?_, fun i hi => ?_⟩
  · rw [run, hdir]
    simp only [hplay, hrecorded.written, Color.turns]
  · refine List.nodup_range.map fun i j hij => ?_
    have := settings.treePath_injective hij
    omega
  · rw [List.getLast?_concat, endLine, hrecorded.ply_eq, hrecorded.position]
  · obtain ⟨place, dump, hw, hcontent, hshows⟩ := hrecorded.filed i hi
    refine ⟨dump, hw.read hcontent, dump.read?_text, ?_, hshows.root, hshows.length_pos, hshows.length_le, ?_⟩
    · rw [hshows.ply, ply_foldl_advance, List.length_take]
      have hply : Position.start.ply = 0 := rfl
      omega
    · rw [hshows.root]
      exact hshows.head

/-- With fresh keys, a search of one iteration writes ten files in a game of twenty moves. -/
theorem run_writes_searches_first_moves :
    let settings := { Settings.default with iterations := 1, samples := 0, treeDir := "" }
    let fresh : FreshKeys := ⟨.ofSeed 294, .ofSeed 295⟩
    (asked settings fresh).length = 20 ∧ ∃ moves log files', moves.length = 20 ∧
      Position.start.isLegalLine moves = true ∧
      run settings fresh .empty = (.ok (paths settings 10), log, files') ∧
      ∀ i < 10, ∃ dump : Dump Float, files'.read (settings.treePath (2 * i)) = .ok dump.text.toUTF8 ∧
        Dump.read? dump.text = some dump.bare ∧ dump.ply = 2 * i ∧
        dump.root = ((moves.take (2 * i)).foldl advance .start).hash ∧ 1 ≤ dump.nodes.length ∧
        ∃ r, dump.nodes.head? = some r ∧ r.key = dump.root ∧ 2 ≤ r.visits.toNat := by
  intro settings fresh
  have hblack : (new settings fresh).player .black = .random ⟨.ofSeed 295⟩ := rfl
  obtain ⟨hstays, hasked⟩ : Arena.Follows maxPly (new settings fresh).player .start Arena.shortGame :=
    Arena.follows_of_single (.start .shared) (Nat.le_add_left _ _) rfl hblack ⟨rfl, rfl⟩
      (Graph.sound_empty (S := (· ∈ []))) Arena.nodup_shortGame
  have hlength : (asked settings fresh).length = 20 := by
    rw [Arena.length_and_nodup_shortGame.1] at hasked
    exact Nat.succ.inj hasked
  have hpath : ∀ n, settings.treePath n = s!"jsontree_ply_{n}.json" := by
    intro n
    simp [Settings.treePath, Path.join, settings, Settings.default]
  have hnames : ∀ i < 10, let name := s!"jsontree_ply_{2 * i}.json"
      '/' ∉ name.toList ∧ '\x00' ∉ name.toList ∧ name ≠ "" ∧ name ≠ "." ∧ name ≠ ".." ∧
        name.utf8ByteSize ≤ Path.maxNameBytes := by
    decide +kernel
  have hwrite : ∀ i < ((asked settings fresh).length + 1) / 2,
      ∃ t, FileTree.empty.write (settings.treePath (2 * i)) .empty = .ok t := by
    rw [hlength]
    intro i hi
    obtain ⟨hslash, hnul, hempty, hdot, hdots, hsize⟩ := hnames i hi
    rw [hpath]
    exact ⟨_, (FileTree.writable_name hslash hnul hempty hdot hdots hsize Std.HashSet.contains_empty).write .empty⟩
  obtain ⟨moves, log, files', hrun, _, hlegal, _, _, hmoves, _, _, hfiles⟩ := run_writes_searches settings fresh
    (by decide) rfl hwrite (collisionFree_of_nodup Arena.nodup_shortGame) hstays
  rw [hlength] at hmoves
  rw [hmoves] at hrun hfiles
  refine ⟨hlength, moves, log, files', hmoves, hlegal, hrun, fun i hi => ?_⟩
  obtain ⟨dump, hread, hback, hply, hroot, hpos, _, hhead⟩ := hfiles i hi
  exact ⟨dump, hread, hback, hply, hroot, hpos, hhead⟩

end TreeGame

end Breakthrough
