namespace Lalr.Text

def padLeft (width : Nat) (fill : Char) (s : String) : String :=
  "".pushn fill (width - s.length) ++ s

def padRight (width : Nat) (s : String) : String :=
  s.pushn ' ' (width - s.length)

def plural (count : Nat) : String :=
  if count = 1 then "" else "s"

def lines (ls : List String) : String :=
  ls.foldl (fun text line => text ++ line ++ "\n") ""

end Lalr.Text
