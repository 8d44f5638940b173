import Plibsys.Ini.PString

/-! # INI files

`pinifile.c`.  `zini_file_parse` reads a file line by line; a line is a section header, a
parameter or nothing.  A section closed by the next header goes to the front of the list
of sections, the one that is open at the end of the file goes to its end, and sections
without parameters are dropped.  Parameters go to the front of the list of their section.
-/

namespace Plibsys.Ini

open Support

def maxLine : Nat := 1024

structure PIniParameter where
  name : List Byte
  value : List Byte
  deriving Repr, DecidableEq

structure PIniSection where
  name : List Byte
  keys : List PIniParameter
  deriving Repr, DecidableEq

structure PIniFile where
  path : String
  sections : List PIniSection
  isParsed : Bool
  deriving Repr, DecidableEq

/-- `zini_file_new` -/
def ziniFileNew (path : String) : PIniFile := ⟨path, [], false⟩

/-- What a line of the file says. -/
inductive Entry where
  | header (name : List Byte)
  | parameter (key value : List Byte)
  deriving Repr, DecidableEq

/-- The length of a byte order mark at the start of the line. -/
def bomShift (line : List Byte) : Nat :=
  let b := fun i => line.getD i 0
  if b 0 = 0xEF ∧ b 1 = 0xBB ∧ b 2 = 0xBF then 3
  else if (b 0 = 0xFE ∧ b 1 = 0xFF) ∨ (b 0 = 0xFF ∧ b 1 = 0xFE) then 2
  else if b 0 = 0x00 ∧ b 1 = 0x00 ∧ b 2 = 0xFE ∧ b 3 = 0xFF then 4
  else if b 0 = 0xFF ∧ b 1 = 0xFE ∧ b 2 = 0x00 ∧ b 3 = 0x00 then 4
  else 0

/-- The format `[%[^]]` -/
def sectionFormat : List Conversion := [.literal (ascii '['), .scanset [ascii ']']]

/-- The formats `%[^=] = "%[^"]"` and, with the other quote, `%[^=] = '%[^']'` -/
def quotedFormat (quote : Byte) : List Conversion :=
  [.scanset [ascii '='], .space, .literal (ascii '='), .space, .literal quote, .scanset [quote],
    .literal quote]

/-- The format `%[^=] = %[^;#]` -/
def plainFormat : List Conversion :=
  [.scanset [ascii '='], .space, .literal (ascii '='), .space, .scanset [ascii ';', ascii '#']]

def doubleQuote : Byte := ascii '"'

def singleQuote : Byte := ascii '\''

/-- The name in a section header. -/
def scanSection (dstLine : List Byte) : Option (List Byte) :=
  if dstLine.head? = some (ascii '[') ∧ dstLine.getLast? = some (ascii ']') then
    match sscanf sectionFormat dstLine with
    | [key] => some key
    | _ => none
  else
    none

/-- The key and value that `sscanf` assigns with a format, if it assigns both. -/
def scanPair (format : List Conversion) (dstLine : List Byte) : Option (List Byte × List Byte) :=
  match sscanf format dstLine with
  | [key, value] => some (key, value)
  | _ => none

/-- The key and value in a parameter line. -/
def scanParameter (dstLine : List Byte) : Option (List Byte × List Byte) :=
  (scanPair (quotedFormat doubleQuote) dstLine).or
    ((scanPair (quotedFormat singleQuote) dstLine).or (scanPair plainFormat dstLine))

/-- A value of two quotes is empty. -/
def unquoteEmpty (value : List Byte) : List Byte :=
  if value = [doubleQuote, doubleQuote] ∨ value = [singleQuote, singleQuote] then [] else value

/-- The buffer limit that the source puts on every trimmed string. -/
def cutLine (str : List Byte) : List Byte := str.take maxLine

/-- What a line as read by `fgets` says. -/
def lineEntry (srcLine : List Byte) : Option Entry :=
  let dstLine := cutLine (zstrchomp (cstr (srcLine.drop (bomShift srcLine))))
  match scanSection dstLine with
  | some key => some (.header (cutLine (zstrchomp key)))
  | none =>
      match scanParameter dstLine with
      | some (key, value) =>
          some (.parameter (cutLine (zstrchomp key)) (unquoteEmpty (cutLine (zstrchomp value))))
      | none => none

/-- The sections read so far and the open one. -/
structure ParseState where
  sections : List PIniSection
  openSection : Option PIniSection
  deriving Repr, DecidableEq

namespace ParseState

/-- The list of sections after the open one was closed by a header. -/
def closed (st : ParseState) : List PIniSection :=
  match st.openSection with
  | some sec => if sec.keys = [] then st.sections else sec :: st.sections
  | none => st.sections

/-- The list of sections at the end of the file. -/
def finished (st : ParseState) : List PIniSection :=
  match st.openSection with
  | some sec => if sec.keys = [] then st.sections else st.sections ++ [sec]
  | none => st.sections

def step (st : ParseState) : Entry → ParseState
  | .header name => ⟨st.closed, some ⟨name, []⟩⟩
  | .parameter key value =>
      match st.openSection with
      | some sec => { st with openSection := some { sec with keys := ⟨key, value⟩ :: sec.keys } }
      | none => st

end ParseState

/-- What the lines of a file say, in order. -/
def entries (content : List Byte) : List Entry := (readLines (maxLine + 1) content).filterMap lineEntry

/-- The loop of `zini_file_parse` over the file. -/
def parseContent (content : List Byte) : ParseState := (entries content).foldl ParseState.step ⟨[], none⟩

/-- `zini_file_parse`, given what opening the file brings: its content, or what
    `zerror_get_last_io` and `zerror_get_last_system` report. -/
def ziniFileParse (opened : Except ( PErrorIO × Int) (List Byte)) (file : PIniFile) :
    Except PIoError Unit × PIniFile :=
  if file.isParsed then
    (.ok (), file)
  else
    match opened with
    | .error (io, system) => (.error ⟨io, system, "Failed to open file for reading"⟩, file)
    | .ok content => (.ok (), { file with sections := (parseContent content).finished, isParsed := true })

namespace PIniFile

/-- The section that every lookup uses: the first of the name. -/
def findSection (file : PIniFile) (name : List Byte) : Option PIniSection :=
  file.sections.find? fun sec => sec.name = name

/-- `pzini_file_find_parameter` -/
def pziniFileFindParameter (file : PIniFile) (sectionName key : List Byte) : Option (List Byte) :=
  if file.isParsed = false then none
  else
    match file.findSection sectionName with
    | none => none
    | some sec => (sec.keys.find? fun param => param.name = key).map PIniParameter.value

/-- `zini_file_sections` -/
def ziniFileSections (file : PIniFile) : List (List Byte) :=
  if file.isParsed = false then []
  else file.sections.foldl (fun ret sec => sec.name :: ret) []

/-- `zini_file_keys` -/
def ziniFileKeys (file : PIniFile) (sectionName : List Byte) : List (List Byte) :=
  if file.isParsed = false then []
  else
    match file.findSection sectionName with
    | none => []
    | some sec => sec.keys.foldl (fun ret param => param.name :: ret) []

/-- `zini_file_is_key_exists` -/
def ziniFileIsKeyExists (file : PIniFile) (sectionName key : List Byte) : Bool :=
  if file.isParsed = false then false
  else
    match file.findSection sectionName with
    | none => false
    | some sec => (sec.keys.find? fun param => param.name = key).isSome

/-- `zini_file_parameter_string`, where `none` is `NULL`. -/
def ziniFileParameterString (file : PIniFile) (sectionName key : List Byte) (defaultVal : Option (List Byte)) :
    Option (List Byte) :=
  match file.pziniFileFindParameter sectionName key with
  | none => defaultVal
  | some val => some val

end PIniFile

end Plibsys.Ini
