/-!
# Text

Cutting names at their last separator, writing numbers in base sixteen, and text as bytes.
-/

namespace DeviceCode.Text

/-- What stands after the last `sep`; the whole text when there is none. -/
def afterLast (sep : Char) (s : String) : String :=
  String.ofList (s.toList.reverse.takeWhile (· != sep)).reverse

/-- The text cut at its last `sep`, which belongs to neither part. -/
def splitLast? (sep : Char) (s : String) : Option (String × String) :=
  match s.toList.reverse.dropWhile (· != sep) with
  | [] => none
  | _ :: front => some (String.ofList front.reverse, afterLast sep s)

/-- `n` in base sixteen with small letters, filled with zeros to at least `width` digits. -/
def hex (width n : Nat) : String :=
  let digits := Nat.toDigits 16 n
  String.ofList (List.replicate (width - digits.length) '0' ++ digits)

/-- `s` filled with blanks on the right to at least `width` characters. -/
def padRight (width : Nat) (s : String) : String :=
  s ++ String.ofList (List.replicate (width - s.length) ' ')

def join (sep : String) : List String → String
  | [] => ""
  | s :: rest => rest.foldl (fun text t => text ++ sep ++ t) s

def utf8 (s : String) : List UInt8 := s.toUTF8.data.toList

def ofUtf8? (bytes : List UInt8) : Option String := String.fromUTF8? ⟨bytes.toArray⟩

end DeviceCode.Text
