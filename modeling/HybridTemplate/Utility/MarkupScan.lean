import HybridTemplate.Utility.AttributeSet

set_option autoImplicit false

/-! The scan needs no grammar: it finds start tags by their brackets and reads the attributes
between the name and the first closing bracket that is not quoted. The name is the longest stretch
of ASCII letters and digits behind the opening bracket. -/
namespace HybridTemplate.Utility.MarkupScan

def ignoredTags : List String := ["head", "title", "meta", "style", "link", "script", "template"]

def isQuote (c : Char) : Bool := c == '"' || c == '\''

def quotedRest? (q : Char) (cs : List Char) : Option (List Char × List Char) :=
  match cs.dropWhile (· != q) with
  | [] => none
  | _ :: rest => some (cs.takeWhile (· != q) ++ [q], rest)

theorem quotedRest?_length {q : Char} {cs inside rest : List Char}
    (h : quotedRest? q cs = some (inside, rest)) : rest.length < cs.length := by
  unfold quotedRest? at h
  have le := (List.dropWhile_sublist (l := cs) (· != q)).length_le
  split at h
  · simp at h
  · rename_i c tail eq
    rw [eq, List.length_cons] at le
    cases h
    omega

/-- The text up to the first closing bracket outside quotes, and what follows it. -/
def upToBracket? : List Char → Option (List Char × List Char)
  | [] => none
  | c :: cs =>
    if c = '>' then some ([], cs)
    else if isQuote c then
      match _quoted : quotedRest? c cs with
      | none => none
      | some (inside, rest) =>
        (upToBracket? rest).map fun (more, rest) => (c :: inside ++ more, rest)
    else (upToBracket? cs).map fun (more, rest) => (c :: more, rest)
termination_by cs => cs.length
decreasing_by
  · have := quotedRest?_length _quoted
    simp only [List.length_cons]
    omega
  · simp

theorem upToBracket?_length {cs attributes rest : List Char}
    (h : upToBracket? cs = some (attributes, rest)) : rest.length < cs.length := by
  fun_induction upToBracket? cs generalizing attributes rest with
  | case1 => simp at h
  | case2 cs => cases h; simp
  | case3 c cs _ _ none => simp at h
  | case4 c cs _ _ inside tail quoted ih =>
    obtain ⟨⟨more, last⟩, found, eq⟩ := Option.map_eq_some_iff.mp h
    cases eq
    have := ih found
    have := quotedRest?_length quoted
    simp only [List.length_cons]
    omega
  | case5 c cs _ _ ih =>
    obtain ⟨⟨more, last⟩, found, eq⟩ := Option.map_eq_some_iff.mp h
    cases eq
    have := ih found
    simp only [List.length_cons]
    omega

def startTags : List Char → List (List Char × List Char)
  | [] => []
  | c :: cs =>
    if c = '<' ∧ cs.head?.any Char.isAlphanum then
      match _found : upToBracket? (cs.dropWhile Char.isAlphanum) with
      | some (attributes, rest) => (cs.takeWhile Char.isAlphanum, attributes) :: startTags rest
      | none => startTags cs
    else startTags cs
termination_by cs => cs.length
decreasing_by
  · have := upToBracket?_length _found
    have := (List.dropWhile_sublist (l := cs) Char.isAlphanum).length_le
    simp only [List.length_cons]
    omega
  · simp
  · simp

def isKeyChar (c : Char) : Bool :=
  !(Text.isBlank c || isQuote c || c == '>' || c == '/' || c == '=')

def isBareChar (c : Char) : Bool :=
  !(Text.isBlank c || isQuote c || c == '=' || c == '>' || c == '<' || c == '\x60')

/-- A value behind an equals sign, quotes included, and what follows it. -/
def value? (cs : List Char) : Option (List Char × List Char) :=
  match cs.dropWhile Text.isBlank with
  | '=' :: behind =>
    match behind.dropWhile Text.isBlank with
    | [] => none
    | c :: rest =>
      if isQuote c then (quotedRest? c rest).map fun (inside, rest) => (c :: inside, rest)
      else if isBareChar c then
        some (c :: rest.takeWhile isBareChar, rest.dropWhile isBareChar)
      else none
  | _ => none

theorem value?_length {cs value rest : List Char} (h : value? cs = some (value, rest)) :
    rest.length < cs.length := by
  unfold value? at h
  have le := (List.dropWhile_sublist (l := cs) Text.isBlank).length_le
  split at h
  · rename_i behind eq
    rw [eq, List.length_cons] at le
    have le' := (List.dropWhile_sublist (l := behind) Text.isBlank).length_le
    split at h
    · simp at h
    · rename_i c tail eq'
      rw [eq', List.length_cons] at le'
      split at h
      · obtain ⟨⟨inside, last⟩, found, eq''⟩ := Option.map_eq_some_iff.mp h
        cases eq''
        have := quotedRest?_length found
        omega
      · split at h
        · cases h
          have := (List.dropWhile_sublist (l := tail) isBareChar).length_le
          omega
        · simp at h
  · simp at h

def attributes : List Char → List (List Char × Option (List Char))
  | [] => []
  | c :: cs =>
    if isKeyChar c then
      match _found : value? (cs.dropWhile isKeyChar) with
      | some (value, rest) => (c :: cs.takeWhile isKeyChar, some value) :: attributes rest
      | none => (c :: cs.takeWhile isKeyChar, none) :: attributes (cs.dropWhile isKeyChar)
    else attributes cs
termination_by cs => cs.length
decreasing_by
  · have := value?_length _found
    have := (List.dropWhile_sublist (l := cs) isKeyChar).length_le
    simp only [List.length_cons]
    omega
  · have := (List.dropWhile_sublist (l := cs) isKeyChar).length_le
    simp only [List.length_cons]
    omega
  · simp

def collectTag (set : AttributeSet) (tag : List Char × List Char) : AttributeSet :=
  if ignoredTags.contains (String.ofList tag.1) then set
  else (attributes tag.2).foldl (fun set a =>
    set.collectPair (String.ofList a.1) (a.2.map String.ofList)) set

def collect (set : AttributeSet) (source : String) : AttributeSet :=
  (startTags source.toList).foldl collectTag set

end HybridTemplate.Utility.MarkupScan
