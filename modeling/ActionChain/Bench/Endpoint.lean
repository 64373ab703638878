/-!
Addresses that data is posted to: a path, or a whole address with a scheme and an authority. Only
the path is of use here; the rest is checked and passed over.
-/
namespace ActionChain.Bench

inductive EndpointFault
  | empty
  | tooLong
  | schemeTooLong
  | character
  | authority
  | format
  deriving DecidableEq, Repr

def EndpointFault.message : EndpointFault → String
  | .empty => "empty string"
  | .tooLong => "uri too long"
  | .schemeTooLong => "scheme too long"
  | .character => "invalid uri character"
  | .authority => "invalid authority"
  | .format => "invalid format"

namespace Endpoint

def isSchemeChar (c : Char) : Bool := c.isAlphanum || ['+', '-', '.', '~'].contains c

/-- What follows a scheme and `://`, if the text starts with them. -/
def afterScheme (cs : List Char) : Except EndpointFault (Option (List Char)) :=
  let name := cs.takeWhile isSchemeChar
  match cs.dropWhile isSchemeChar with
  | ':' :: '/' :: '/' :: rest =>
    if 64 < name.length then .error .schemeTooLong
    else if name.isEmpty && rest.isEmpty then .ok none
    else .ok (some rest)
  | _ => .ok none

def isAuthorityChar (c : Char) : Bool :=
  c.isAlphanum || "!$&'()*+,-.:;=@[]_~".toList.contains c

/-- What has been seen of an authority: colons and percent signs since the last part that may hold
any, brackets, and whether an `@` was last. -/
structure AuthorityScan where
  colons : Nat := 0
  percent : Bool := false
  opened : Bool := false
  closed : Bool := false
  afterAt : Bool := false

namespace AuthorityScan

def next (s : AuthorityScan) (c : Char) : Except EndpointFault AuthorityScan :=
  match c with
  | ':' => if 8 ≤ s.colons then .error .authority
    else .ok { s with colons := s.colons + 1, afterAt := false }
  | '[' => if s.percent || s.opened then .error .authority
    else .ok { s with opened := true, afterAt := false }
  | ']' => if !s.opened || s.closed then .error .authority
    else .ok { s with closed := true, colons := 0, percent := false, afterAt := false }
  | '@' => .ok { s with colons := 0, percent := false, afterAt := true }
  | '%' => .ok { s with percent := true, afterAt := false }
  | c => if isAuthorityChar c then .ok { s with afterAt := false } else .error .character

def isComplete (s : AuthorityScan) : Bool :=
  s.opened == s.closed && s.colons ≤ 1 && !s.afterAt && !s.percent

end AuthorityScan

/-- Checks an authority and returns what follows it. -/
def afterAuthority (cs : List Char) : Except EndpointFault (List Char) := do
  let ends (c : Char) : Bool := ['/', '?', '#'].contains c
  let s ← (cs.takeWhile fun c => !ends c).foldlM AuthorityScan.next {}
  if s.isComplete then return cs.dropWhile fun c => !ends c else .error .authority

def isSeen (c : Char) : Bool := ' ' < c && c ≠ '\x7f'

def isPathChar (c : Char) : Bool := isSeen c && c ≠ '<' && c ≠ '>' && c ≠ '\x60'
def isQueryChar (c : Char) : Bool := isSeen c && c ≠ '"' && c ≠ '<' && c ≠ '>'

/-- The path before a query and a fragment, each of which may be missing. -/
def path (cs : List Char) : Except EndpointFault (List Char) :=
  let name := cs.takeWhile fun c => c ≠ '?' && c ≠ '#'
  let query := match cs.dropWhile fun c => c ≠ '?' && c ≠ '#' with
    | '?' :: rest => rest.takeWhile (· ≠ '#')
    | _ => []
  if !name.all isPathChar || !query.all isQueryChar then .error .character
  else .ok (if name.isEmpty then ['/'] else name)

/-- The path of an address; an authority alone has an empty one. -/
def read (text : String) : Except EndpointFault (List Char) := do
  let cs := text.toList
  if 65534 < text.utf8ByteSize then .error .tooLong
  match cs with
  | [] => .error .empty
  | ['*'] => return ['*']
  | '/' :: _ => path cs
  | _ =>
    match ← afterScheme cs with
    | some rest =>
      let after ← afterAuthority rest
      if after.length = rest.length then .error .format else path after
    | none =>
      let after ← afterAuthority cs
      if after.isEmpty then return []
      else if text.utf8ByteSize = 1 then .error .character
      else .error .format

end Endpoint

end ActionChain.Bench
