import VectorHeap.Text.Hex
import VectorHeap.Text.Visible

/-! Quoted text: double quotes around the characters, with escapes for quotes, backslashes and
whatever would not be seen. -/
namespace VectorHeap.Quoted

def escape (c : Char) : List Char :=
  match c with
  | '"' => ['\\', '"']
  | '\\' => ['\\', '\\']
  | '\n' => ['\\', 'n']
  | '\r' => ['\\', 'r']
  | '\t' => ['\\', 't']
  | '\x00' => ['\\', '0']
  | c =>
    if Text.isVisible c then [c]
    else '\\' :: 'u' :: '\x7b' :: (Nat.toDigits 16 c.toNat ++ ['\x7d'])

def quote (s : String) : String := String.ofList ('"' :: (s.toList.flatMap escape ++ ['"']))

end VectorHeap.Quoted
