/-!
Colours on a terminal. A styled text starts with an escape sequence that sets its style and ends
with one that resets it.
-/

namespace ScriptImage

/-- When texts are styled; left to itself a command always does. -/
inductive ColorMode where
  | auto
  | always
  | never
  deriving DecidableEq, Repr

namespace ColorMode

def all : List ColorMode := [.auto, .always, .never]

def name : ColorMode → String
  | .auto => "auto"
  | .always => "always"
  | .never => "never"

def ofName? (s : String) : Option ColorMode := all.find? fun m => m.name == s

def isOn (m : ColorMode) : Bool := m ≠ .never

end ColorMode

inductive Style where
  | red
  | green
  | yellow
  | cyan
  | boldCyan
  deriving DecidableEq, Repr

namespace Style

/-- The parameters of the sequence that sets a style. -/
def code : Style → String
  | .red => "31"
  | .green => "32"
  | .yellow => "33"
  | .cyan => "36"
  | .boldCyan => "1;36"

end Style

def ColorMode.paint (m : ColorMode) (style : Style) (text : String) : String :=
  if m.isOn then "\x1b[" ++ style.code ++ "m" ++ text ++ "\x1b[0m" else text

end ScriptImage
