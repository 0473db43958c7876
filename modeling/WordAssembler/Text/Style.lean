import WordAssembler.Text.Numeral

/-!
# Terminal styles and columns

Output is coloured with terminal escape sequences, whether or not it goes to a terminal. A style is
switched on by one code and off by another; switching a colour off returns to the default colour,
so of two colours in a row only the last needs it.
-/

namespace WordAssembler

inductive Style where
  | red
  | green
  | yellow
  | blue
  | bold
  | underline
deriving DecidableEq, Repr

namespace Style

def onCode : Style → Nat
  | red => 31
  | green => 32
  | yellow => 33
  | blue => 34
  | bold => 1
  | underline => 4

def offCode : Style → Nat
  | red | green | yellow | blue => 39
  | bold => 22
  | underline => 24

def escape (code : Nat) : String :=
  "\x1b[" ++ Numeral.decimal code ++ "m"

def on (style : Style) : String :=
  escape style.onCode

def off (style : Style) : String :=
  escape style.offCode

def paint (style : Style) (text : String) : String :=
  style.on ++ text ++ style.off

/-- The text in bold of one colour. The colour is switched on first and off first. -/
def paintBold (colour : Style) (text : String) : String :=
  colour.on ++ bold.on ++ text ++ colour.off ++ bold.off

end Style

namespace Text

def alignRight (width : Nat) (s : String) : String :=
  String.ofList (s.toList.leftpad width ' ')

def alignLeft (width : Nat) (s : String) : String :=
  String.ofList (s.toList.rightpad width ' ')

end Text

end WordAssembler
