import Letrec.Text.GraphemeExtend
import Letrec.Text.Nongraphic

/-!
# Quoted text

A text is quoted between two equal marks. Inside, a few characters are written as a backslash and a
letter, characters that would not show by themselves as their code point in braces, and all others
as they are.
-/

namespace Letrec.Quoted

/-- The quotation mark around strings. -/
def stringMark : Char := '\x22'

/-- The quotation mark around single characters. -/
def charMark : Char := '\x27'

/-- The letter that stands for a character behind a backslash, for those that have one. The mark
that closes the text stands for itself. -/
def letter? (mark c : Char) : Option Char :=
  if c = mark then some mark
  else if c = '\x00' then some '0'
  else if c = '\t' then some 't'
  else if c = '\r' then some 'r'
  else if c = '\n' then some 'n'
  else if c = '\\' then some '\\'
  else none

/-- The letters that stand for a missing part of a Hangul syllable and show nothing. -/
def hangulFillers : List Char := ['\u115f', '\u1160', '\u3164', '\uffa0']

/-- The halfwidth sound marks of Katakana. They extend the character in front of them, but unlike
combining marks they take up room of their own. -/
def halfwidthSoundMarks : List Char := ['\uff9e', '\uff9f']

/-- Whether a character is written as its code point: one that shows nothing by itself, and one that
would merge with the character in front of it. -/
def isNumbered (c : Char) : Bool :=
  isNongraphic c || hangulFillers.contains c ||
    isGraphemeExtend c && !halfwidthSoundMarks.contains c

/-- The written form of one character between two `mark`s. -/
def encodeChar (mark c : Char) : List Char :=
  match letter? mark c with
  | some l => ['\\', l]
  | none =>
    if isNumbered c then '\\' :: 'u' :: '\x7b' :: (Nat.toDigits 16 c.toNat ++ ['\x7d'])
    else [c]

/-- The written form of a text between two `mark`s. -/
def encode (mark : Char) (s : List Char) : List Char := s.flatMap (encodeChar mark)

/-- A string in its quotation marks. -/
def string (s : String) : String :=
  String.ofList (stringMark :: (encode stringMark s.toList ++ [stringMark]))

/-- A character in its quotation marks. -/
def char (c : Char) : String :=
  String.ofList (charMark :: (encodeChar charMark c ++ [charMark]))

end Letrec.Quoted
