/-!
# Inspected forms

The inspected form of a value names its constructor and shows its parts. It comes in two layouts: `flat`
on one line, and `spread` over several lines, where each part stands on lines of its own, indented by
four spaces and ended by a comma. A group without parts has the same form in both.
-/

namespace LexBase

set_option autoImplicit false

structure Form where
  flat : String
  spread : List String
deriving DecidableEq, Repr

namespace Form

def atom (s : String) : Form := ⟨s, [s]⟩

def labelled (label : String) (f : Form) : Form :=
  ⟨label ++ f.flat, match f.spread with
    | [] => [label]
    | l :: ls => (label ++ l) :: ls⟩

def partLines : List String → List String
  | [] => []
  | [l] => ["    " ++ l ++ ","]
  | l :: ls => ("    " ++ l) :: partLines ls

/-- The parts between an opening and a closing bracket; `gap` separates the brackets from the parts in
the flat layout. -/
def group (opening closing gap : String) : List Form → Form
  | [] => atom (opening ++ closing)
  | fs =>
    ⟨opening ++ gap ++ ", ".intercalate (fs.map Form.flat) ++ gap ++ closing,
      opening :: fs.flatMap (fun f => partLines f.spread) ++ [closing]⟩

def tuple (name : String) : List Form → Form
  | [] => atom name
  | fs => group (name ++ "(") ")" "" fs

def fields (fs : List (String × Form)) : List Form :=
  fs.map fun (name, f) => labelled (name ++ ": ") f

def record (name : String) (fs : List (String × Form)) : Form :=
  group (name ++ " \x7b") "\x7d" " " (fields fs)

def list (fs : List Form) : Form := group "[" "]" "" fs

/-- A key and its value keep together when the value needs several lines. -/
def entry (key value : Form) : Form :=
  labelled (key.flat ++ ": ") value

def map (fs : List Form) : Form := group "\x7b" "\x7d" "" fs

def lines (f : Form) : String := "\n".intercalate f.spread

end Form

end LexBase
