import PageBuf.Model.Readers

/-!
# Wrapper — the line reader of the C++ interface

`pb::line_reader` keeps the bytes of its line beside a `pb_line_reader`, and a
mark of its own for having them.
-/

namespace Pb

open StateRun

/-- `pb::line_reader`. -/
structure CppLineReader where
  lineReader : LineReader
  line : List UInt8
  hasLine : Bool
deriving DecidableEq, Repr

/-- `std::string::resize`. -/
def stringResize (s : List UInt8) (n : Nat) : List UInt8 :=
  s.take n ++ List.replicate (n - s.length) 0

/-- `line_reader::line_reader(buffer&)`. A `pb_line_reader` that could not be
created leaves a null pointer, which no method checks for. -/
def cppLineReaderCreate (env : Env) (b : Nat) : PbM (Option CppLineReader) := do
  match ← lineReaderCreate env b with
  | none => pure none
  | some r => pure (some ⟨r, [], false⟩)

/-- `line_reader::reset`. -/
def cppLineReaderReset (env : Env) (w : CppLineReader) : PbM CppLineReader := do
  let r ← lineReaderReset env w.lineReader
  pure ⟨r, [], false⟩

/-- `line_reader::has_line`. -/
def cppLineReaderHasLine (env : Env) (w : CppLineReader) : PbM (Bool × CppLineReader) :=
  if w.hasLine then pure (true, w)
  else do
    let (found, r) ← lineReaderHasLine env w.lineReader
    if !found then pure (false, { w with lineReader := r })
    else do
      let (lineLen, r) ← lineReaderGetLineLen env r
      let line := stringResize w.line lineLen
      let (data, r) ← lineReaderGetLineData env r lineLen
      pure (true, ⟨r, data ++ line.drop data.length, true⟩)

/-- `line_reader::get_line_len`. -/
def cppLineReaderGetLineLen (env : Env) (w : CppLineReader) : PbM (Nat × CppLineReader) := do
  let (found, w) ← cppLineReaderHasLine env w
  if !found then pure (0, w) else pure (w.line.length, w)

/-- `line_reader::get_line`. -/
def cppLineReaderGetLine (w : CppLineReader) : List UInt8 := w.line

/-- `line_reader::seek_line`. -/
def cppLineReaderSeekLine (env : Env) (w : CppLineReader) : PbM (Nat × CppLineReader) := do
  let (found, w) ← cppLineReaderHasLine env w
  if !found then pure (0, w)
  else do
    let (seeked, r) ← lineReaderSeekLine env w.lineReader
    let w ← cppLineReaderReset env { w with lineReader := r }
    pure (seeked, w)

/-- `line_reader::is_line_crlf`. -/
def cppLineReaderIsLineCrlf (env : Env) (w : CppLineReader) : PbM (Bool × CppLineReader) := do
  let (found, w) ← cppLineReaderHasLine env w
  if !found then pure (false, w) else pure (lineReaderIsCrlf w.lineReader, w)

end Pb
