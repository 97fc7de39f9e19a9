import Breakthrough.Agent.Random
import Breakthrough.Random.Rejection
import Breakthrough.Settings

/-!
# Players

A player is one of the three agents, made from the settings and a seed, or from a key that the system
has drawn if there is no seed. All of them answer a position with a move and give the position back.
-/

namespace Breakthrough

inductive PlayerKind where
  | search
  | greedy
  | random
  deriving DecidableEq, Repr, Inhabited

namespace PlayerKind

def name : PlayerKind → String
  | search => "mcts"
  | greedy => "greedy"
  | random => "random"

def all : List PlayerKind := [search, greedy, random]

def ofName? (s : String) : Option PlayerKind := all.find? fun k => k.name == s

/-- The agent of a name in which the case of Latin letters does not matter. -/
def ofNameIgnoringCase? (s : String) : Option PlayerKind := ofName? (s.map Char.toLower)

/-- The agent that plays unless another is asked for. -/
def default : PlayerKind := search

end PlayerKind

/-- The stream of a seed. Without a seed it is the stream of the `fresh` key. -/
def streamOf (seed : Option UInt64) (fresh : ChaCha.Key) : ChaCha :=
  match seed with
  | some seed => .ofSeed seed
  | none => .ofKey fresh

/-- Keys that the system has drawn for the two players of a game. -/
structure FreshKeys where
  first : ChaCha.Key
  second : ChaCha.Key

inductive Player where
  | search (engine : Search.Engine Float ChaCha)
  | greedy (agent : Greedy Float ChaCha)
  | random (agent : RandomAgent ChaCha)

namespace Player

/-- An agent that has not played yet; its own seed comes before that of the settings. -/
def new (kind : PlayerKind) (settings : Settings) (seed : Option UInt64) (fresh : ChaCha.Key) : Player :=
  let seed := seed <|> settings.seed
  let source := streamOf seed fresh
  match kind with
  | .search => .search (.new { settings.search with seed } source .empty)
  | .greedy => .greedy (.new settings.greedy source)
  | .random => .random ⟨source⟩

def kind : Player → PlayerKind
  | search _ => .search
  | greedy _ => .greedy
  | random _ => .random

/-- A move for the side to move. The position comes back as it was. -/
def choose (player : Player) (p : Position) :
    Except Error Move × List LogLine × Player × Position :=
  match player with
  | search engine =>
    let (answer, lines, engine, p) := engine.choose p
    (answer, lines, .search engine, p)
  | greedy agent =>
    let (answer, agent, p) := agent.choose p
    (answer.map Prod.fst, agent.report answer, .greedy agent, p)
  | random agent =>
    let (answer, agent) := agent.choose p
    (answer, [], .random agent, p)

/-- The player without what it remembers of the game. -/
def reset : Player → Player
  | search engine => .search engine.reset
  | player => player

/-- The searched graph, if the player has one. -/
def graph? : Player → Option (Search.Graph Float)
  | search engine => some engine.graph
  | _ => none

end Player

end Breakthrough
