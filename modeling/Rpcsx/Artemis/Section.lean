import Rpcsx.Artemis
import Rpcsx.Data.Search

namespace Rpcsx.Artemis

open Data Data.Text Data.Search

-- What java.util.regex throws for a replacement string.
inductive ReplaceError where
  | escapeMissing
  | illegalGroup
  | noGroup
deriving DecidableEq, Repr

-- The replacement string of a pattern without groups: a backslash quotes the next character,
-- $0 stands for the match.
def expandReplacement (matched : Text) : Text → Except ReplaceError Text
  | [] => .ok []
  | '\\' :: rest =>
      match rest with
      | [] => .error .escapeMissing
      | c :: rest => (expandReplacement matched rest).map (c :: ·)
  | '$' :: rest =>
      match rest with
      | [] => .error .illegalGroup
      | c :: rest =>
          if c = '0' then
            (expandReplacement matched (rest.dropWhile (· = '0'))).map (matched ++ ·)
          else if c.isDigit then .error .noGroup
          else .error .illegalGroup
  | c :: rest => (expandReplacement matched rest).map (c :: ·)
termination_by text => text.length
decreasing_by
  · simp only [List.length_cons]
    omega
  · have := List.length_dropWhile_le (· = '0') rest
    simp only [List.length_cons]
    omega
  · simp

structure Markers where
  start : Text
  finish : Text

-- The section pattern at the front of a text: the start marker, as little as possible up to
-- the end marker, and the blanks behind it.
def Markers.matchAt (markers : Markers) (text : Text) : Option Nat :=
  if markers.start <+: text then
    match find markers.finish (text.drop markers.start.length) with
    | some index =>
        let length := markers.start.length + index + markers.finish.length
        some (length + ((text.drop length).takeWhile isSpace).length)
    | none => none
  else none

def Markers.sectionText (markers : Markers) (body : Text) : Text :=
  markers.start ++ '\n' :: ((if isBlank body then [] else body ++ ['\n']) ++
    (markers.finish ++ ['\n']))

def currentText (original prefixIfCreated : Text) : Text :=
  if isBlank original ∧ isBlank prefixIfCreated = false then prefixIfCreated else original

-- The text in front of an appended section.
def appendBase (current : Text) : Text :=
  let kept := trimEnd isWhitespace current
  if kept = [] then [] else kept ++ ['\n', '\n']

def updatedText (markers : Markers) (body prefixIfCreated original : Text) :
    Except ReplaceError Text :=
  let current := currentText original prefixIfCreated
  if contains markers.start current ∧ contains markers.finish current then
    replaceAll markers.matchAt (fun matched => expandReplacement matched (markers.sectionText body))
      current
  else .ok (appendBase current ++ markers.sectionText body)

structure GeneratedFile where
  text : Option Text := none
  backup : Option Text := none
deriving DecidableEq, Repr

-- A file without a section is copied once before it is changed. The result tells whether it
-- was; nothing is written when the replacement throws.
def writeGeneratedSection (markers : Markers) (body prefixIfCreated : Text)
    (file : GeneratedFile) : GeneratedFile × Except ReplaceError Bool :=
  let original := file.text.getD []
  let copied := file.text.isSome ∧ contains markers.start original = false ∧ file.backup = none
  let file := if copied then { file with backup := some original } else file
  match updatedText markers body prefixIfCreated original with
  | .ok text => ({ file with text := some text }, .ok copied)
  | .error error => (file, .error error)

-- Writes one after the other, up to the first that throws.
def writeBodies (markers : Markers) (prefixIfCreated : Text) :
    List Text → GeneratedFile → Except ReplaceError GeneratedFile
  | [], file => .ok file
  | body :: rest, file =>
      match writeGeneratedSection markers body prefixIfCreated file with
      | (file, .ok _) => writeBodies markers prefixIfCreated rest file
      | (_, .error error) => .error error

end Rpcsx.Artemis

namespace Rpcsx.Artemis

open Data Data.Text Data.Search

-- A replacement string that stands for itself.
def Literal (text : Text) : Prop := '\\' ∉ text ∧ '$' ∉ text

theorem expandReplacement_literal {text : Text} (h : Literal text) (matched : Text) :
    expandReplacement matched text = .ok text := by
  induction text with
  | nil => rw [expandReplacement]
  | cons c rest ih =>
      obtain ⟨hb, hd⟩ := h
      simp only [List.mem_cons, not_or] at hb hd
      rw [expandReplacement, ih ⟨hb.2, hd.2⟩]
      · rfl
      · exact fun h => hb.1 h.symm
      · exact fun h => hd.1 h.symm

section Write

variable {markers : Markers} {pre post body prefixIfCreated : Text}

theorem matchAt_contains {text : Text} {length : Nat} (h : markers.matchAt text = some length) :
    contains markers.start text = true ∧ contains markers.finish text = true := by
  unfold Markers.matchAt at h
  split at h
  · next hstart =>
      split at h
      · next index hfind =>
          refine ⟨contains_iff.mpr hstart.isInfix, contains_iff.mpr ?_⟩
          have hinfix := (find_some hfind).isInfix
          exact hinfix.trans ((List.drop_suffix _ _).isInfix.trans (List.drop_suffix _ _).isInfix)
      · cases h
  · cases h

-- The text around the section is kept when the section is the only match.
theorem updatedText_replace {middle : Text}
    (hsole : SoleMatch markers.matchAt pre middle post)
    (hcurrent : currentText (pre ++ (middle ++ post)) prefixIfCreated = pre ++ (middle ++ post))
    (hl : Literal (markers.sectionText body)) :
    updatedText markers body prefixIfCreated (pre ++ (middle ++ post)) =
      .ok (pre ++ (markers.sectionText body ++ post)) := by
  obtain ⟨hstart, hfinish⟩ := matchAt_contains hsole.match_middle
  have hsuffix : (middle ++ post) <:+: pre ++ (middle ++ post) := (List.suffix_append _ _).isInfix
  have hboth : contains markers.start (pre ++ (middle ++ post)) = true ∧
      contains markers.finish (pre ++ (middle ++ post)) = true :=
    ⟨contains_iff.mpr ((contains_iff.mp hstart).trans hsuffix),
      contains_iff.mpr ((contains_iff.mp hfinish).trans hsuffix)⟩
  rw [updatedText, hcurrent, if_pos hboth, replaceAll_soleMatch _ hsole,
    expandReplacement_literal hl]
  rfl

theorem updatedText_append {original : Text}
    (h : ¬(contains markers.start (currentText original prefixIfCreated) = true ∧
      contains markers.finish (currentText original prefixIfCreated) = true)) :
    updatedText markers body prefixIfCreated original =
      .ok (appendBase (currentText original prefixIfCreated) ++ markers.sectionText body) := by
  rw [updatedText, if_neg h]

end Write

-- The user's text around the section, for a file without one and for a file with one.
inductive Outside (markers : Markers) (current pre post : Text) : Prop where
  | appended (hb : ¬(contains markers.start current = true ∧
      contains markers.finish current = true))
      (hpre : pre = appendBase current) (hpost : post = []) : Outside markers current pre post
  | replaced (middle : Text) (hc : current = pre ++ (middle ++ post))
      (hs : SoleMatch markers.matchAt pre middle post) : Outside markers current pre post

end Rpcsx.Artemis
