import NeoScript.Archive.Zip
import NeoScript.DebugInfo.Basic
import NeoScript.Text.Utf8

/-!
# Archive — debug information in files

* `DebugInfo.archiveText`, `DebugInfo.ofArchive` — the first entry of an archive;
* `DebugInfo.load` — from an archive or from plain text;
* `DebugInfo.toArchive` — an archive of one entry.
-/

namespace NeoScript
namespace DebugInfo

def archiveMagic : List UInt8 := [0x50, 0x4B, 0x03, 0x04]

def archiveText (bytes : List UInt8) : Except Error String :=
  let file := bytes.toArray
  match Zip.entries? file with
  | none => .error .archive
  | some [] => .error (.invalidDebugInfo .noEntries)
  | some (entry :: _) =>
      match entry.data? file with
      | none => .error .archive
      | some data =>
          match (entry.unpack? data).bind Utf8.decode? with
          | some text => .ok text
          | none => .error .io

def ofArchive (bytes : List UInt8) : Except Error DebugInfo := do
  parse (← archiveText bytes)

def load (bytes : List UInt8) : Except Error DebugInfo :=
  if archiveMagic.isPrefixOf bytes then ofArchive bytes
  else
    match Utf8.decode? bytes with
    | some text => parse text
    | none => .error (.invalidDebugInfo .notUtf8)

/-- An archive with the text as its one entry, which is compressed. -/
def toArchive (info : DebugInfo) (name : String) : List UInt8 :=
  Zip.single (Utf8.encode name) (Utf8.encode info.render)

end DebugInfo
end NeoScript
