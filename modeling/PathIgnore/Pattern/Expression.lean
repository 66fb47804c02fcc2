import PathIgnore.Pattern

/-!
# Patterns as regular expressions

Every pattern has a written form as a regular expression over the whole text, and a size as the
automata that this expression compiles to. Two patterns are the same exactly if their expressions
are, and a pattern with an automaton that is too large is not searched for.
-/

namespace PathIgnore

namespace Token

/-- The characters that mean something in a regular expression. -/
def metacharacters : List Char :=
  ['\\', '.', '+', '*', '?', '(', ')', '|', '[', ']', '\x7b', '\x7d', '^', '$', '#', '&', '-', '~']

/-- The expression of one token. -/
def expression : Token → Text
  | .literal c => if c ∈ metacharacters then ['\\', c] else [c]
  | .component => ['[', '^', '/', ']', '*']
  | .anything => ['.', '*']
  | .directories => ['(', '?', ':', '.', '*', '/', ')', '?']

end Token

namespace Pattern

/-- The regular expression of a pattern. -/
def expression (pattern : Pattern) : Text :=
  '^' :: (pattern.flatMap Token.expression ++ ['$'])

end Pattern

/-! ## Automata -/

/-- The two automata that a pattern compiles to. -/
inductive Automaton where
  /-- Reads a text from its start, and notes where a match begins and where it ends. -/
  | forward
  /-- Reads a text from its end. -/
  | backward
  deriving DecidableEq, Repr

namespace Automaton

/-- The bytes of a state. A state that branches takes four more for each branch. -/
def stateSize : Nat := 32

/-- The bytes of the states of every automaton: one to start in, the two anchors and one to accept
in, and forward also the two that note the ends of a match. -/
def frameSize : Automaton → Nat
  | .forward => 6 * stateSize
  | .backward => 4 * stateSize

/-- The bytes of any number of characters out of a class that lacks one ASCII character: a branch
into the class and past it, the states of the class, and one to leave it by. Forward, the first byte
of an encoding lies in one of ten ranges of eight bytes each, and seven more states with one range
read the other bytes. Backward, there is a branch to each of the ten forms of an encoding and a
state for each of their 28 bytes. -/
def runSize : Automaton → Nat
  | .forward => (stateSize + 2 * 4) + (stateSize + 10 * 8) + 7 * (stateSize + 8) + stateSize
  | .backward => (stateSize + 2 * 4) + (stateSize + 10 * 4) + 28 * stateSize + stateSize

end Automaton

/-- The bytes that one token takes in an automaton. A literal takes a state for each byte of its
encoding, and the directories that may be left out a branch and a state to go on from. -/
def Token.size (automaton : Automaton) : Token → Nat
  | .literal c => Automaton.stateSize * c.utf8Size
  | .component => automaton.runSize
  | .anything => automaton.runSize
  | .directories =>
    (Automaton.stateSize + 2 * 4) + automaton.runSize + Automaton.stateSize + Automaton.stateSize

namespace Pattern

/-- The size in bytes of an automaton of a pattern. -/
def size (automaton : Automaton) : Pattern → Nat
  | [] => automaton.frameSize
  | token :: rest => token.size automaton + size automaton rest

/-- The size in bytes that no automaton may exceed. -/
def sizeLimit : Nat := 10485760

/-- Whether the automata of a pattern are small enough to search with. -/
def fits (pattern : Pattern) : Bool :=
  pattern.size .forward ≤ sizeLimit && pattern.size .backward ≤ sizeLimit

end Pattern

end PathIgnore
