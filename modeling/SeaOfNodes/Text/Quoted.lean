import SeaOfNodes.Text.Hidden

/-!
Quoted text: a quote, a backslash and the usual blanks are written with a backslash, and characters that would not show as
themselves by their code point.
-/

namespace SeaOfNodes.Text.Quoted

def encodeChar (c : Char) : List Char :=
  match c with
  | '"' => ['\\', '"']
  | '\\' => ['\\', '\\']
  | '\t' => ['\\', 't']
  | '\n' => ['\\', 'n']
  | '\r' => ['\\', 'r']
  | '\x00' => ['\\', '0']
  | c => if isHidden c then ['\\', 'u', '\x7b'] ++ Nat.toDigits 16 c.toNat ++ ['\x7d'] else [c]

def encode (text : String) : String := String.ofList ('"' :: text.toList.flatMap encodeChar ++ ['"'])

end SeaOfNodes.Text.Quoted
