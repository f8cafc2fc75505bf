import Mathlib.Tactic.Common
import RobotSource.Proofs.Parsing.Word
import RobotSource.Uri.Parse
/-!
# The characters of addresses

Whatever is read as an address is written in ASCII (`Uri.ascii_of_parse`): the parts of an address
are percent encoded or refused where they hold other characters, and so is an address that is made
from the path of a file (`Uri.ascii_ofFilePath`). The name of a document is a piece of its address,
so it is ASCII as well (`Uri.ascii_bareName`).
-/

namespace RobotSource.Parsing

open Text

variable {u v : List Char}

@[simp] theorem ascii_nil : Ascii [] := List.forall_mem_nil _

@[simp] theorem ascii_cons {x : Char} : Ascii (x :: u) ↔ x.toNat < 128 ∧ Ascii u :=
  List.forall_mem_cons

@[simp] theorem ascii_append : Ascii (u ++ v) ↔ Ascii u ∧ Ascii v := List.forall_mem_append

theorem Ascii.of_subset (h : u ⊆ v) (hv : Ascii v) : Ascii u :=
  fun x hx => hv x (h hx)

theorem Ascii.map_toLower (h : Ascii u) : Ascii (u.map Char.toLower) := by
  intro x hx
  obtain ⟨y, hy, rfl⟩ := List.mem_map.1 hx
  exact toLower_lt (h y hy)

end RobotSource.Parsing

namespace RobotSource.Uri

open Parsing Text

variable {cs : List Char} {special : Char → Bool} {scheme text : String} {file : Bool}

/-- A text in ASCII. -/
def IsAscii (s : String) : Prop := Ascii s.toList

instance {s : String} : Decidable (IsAscii s) :=
  inferInstanceAs (Decidable (Ascii s.toList))

@[simp] theorem isAscii_ofList : IsAscii (String.ofList cs) ↔ Ascii cs := by
  rw [IsAscii, String.toList_ofList]

@[simp] theorem isAscii_append {s t : String} : IsAscii (s ++ t) ↔ IsAscii s ∧ IsAscii t := by
  rw [IsAscii, String.toList_append, ascii_append]
  rfl

@[simp] theorem isAscii_empty : IsAscii "" := ascii_nil

/-! ## Results -/

/-- A result that, if there is one, satisfies `P`. -/
def Yields {α : Type} (P : α → Prop) (x : Except UriError α) : Prop :=
  ∀ a, x = .ok a → P a

namespace Yields

variable {α β : Type} {P : α → Prop} {Q : β → Prop}

@[simp] theorem ok {a : α} : Yields P (.ok a) ↔ P a := by simp [Yields]

@[simp] theorem error {e : UriError} : Yields P (.error e) := by simp [Yields]

theorem bind {x : Except UriError α} {f : α → Except UriError β} (hx : Yields P x)
    (hf : ∀ a, P a → Yields Q (f a)) : Yields Q (x >>= f) := by
  cases x with
  | error e => exact error
  | ok a => exact hf a (hx a rfl)

end Yields

/-! ## Encoded text -/

theorem ascii_encodeByte (b : UInt8) : Ascii (encodeByte b) := by
  have hdigit : ∀ n < 16, (hexDigit n).toUpper.toNat < 128 := by decide
  have hb : b.toNat < 256 := b.toNat_lt
  simp [encodeByte, hdigit (b.toNat / 16) (by omega), hdigit (b.toNat % 16) (by omega)]

/-- **Encoded text is ASCII**, whatever else is encoded besides the control characters. -/
theorem ascii_percentEncode (h : ∀ c, isControl c → special c) :
    Ascii (percentEncode special cs) := by
  intro x hx
  obtain ⟨c, -, hc⟩ := List.mem_flatMap.1 hx
  split at hc
  · obtain ⟨b, -, hb⟩ := List.mem_flatMap.1 hc
    exact ascii_encodeByte b x hb
  · rename_i hplain
    obtain rfl := List.mem_singleton.1 hc
    by_contra hge
    have hcontrol : isControl x := by
      simp only [isControl, Bool.or_eq_true, decide_eq_true_eq]
      omega
    exact hplain (h x hcontrol)

theorem pathSpecial_of_isControl {c : Char} (h : isControl c) : pathSpecial c := by
  simp [pathSpecial, fragmentSpecial, h]

/-! ## Paths -/

theorem ascii_normalSegment {path : List (List Char)} :
    Ascii (normalSegment file path cs) := by
  unfold normalSegment
  split
  · rename_i hdrive
    -- a drive letter is a letter and a mark
    have hletter : isDriveLetter cs := (Bool.and_eq_true_iff.1 hdrive).2
    unfold isDriveLetter at hletter
    split at hletter
    · rename_i c d
      have hc : c.isAlpha := (Bool.and_eq_true_iff.1 hletter).1
      have hlt : c.toNat < 128 := lt_of_isAlphanum (by rw [Char.isAlphanum, hc, Bool.true_or])
      simpa using hlt
    · cases hletter
  · exact ascii_percentEncode fun _ => pathSpecial_of_isControl

theorem shorten_subset {path : List (List Char)} : shorten file path ⊆ path := by
  unfold shorten
  split
  · split
    · exact List.Subset.refl _
    · exact List.nil_subset _
  · exact (List.dropLast_sublist _).subset

/-- Adding segments keeps a path ASCII. -/
theorem ascii_addSegments {path segments : List (List Char)}
    (h : ∀ s ∈ path, Ascii s) : ∀ s ∈ addSegments file path segments, Ascii s := by
  have hend {path : List (List Char)} {last : List Char} (h : ∀ s ∈ path, Ascii s)
      (hlast : Ascii last) : ∀ s ∈ path ++ [last], Ascii s :=
    List.forall_mem_append.2 ⟨h, List.forall_mem_singleton.2 hlast⟩
  fun_induction addSegments file path segments with
  | case1 => exact h
  | case2 => exact hend (fun s hs => h s (shorten_subset hs)) ascii_nil
  | case3 => exact hend h ascii_nil
  | case4 => exact hend h ascii_normalSegment
  | case5 _ _ _ _ _ ih => exact ih fun s hs => h s (shorten_subset hs)
  | case6 _ _ _ _ _ _ ih => exact ih h
  | case7 _ _ _ _ _ _ ih => exact ih (hend h ascii_normalSegment)

@[simp] theorem ascii_normalPath : Ascii (normalPath file cs) := by
  have hpath : Ascii ((addSegments file [] (FilePath.splitSlashes cs)).flatMap ('/' :: ·)) := by
    intro x hx
    obtain ⟨s, hs, hx⟩ := List.mem_flatMap.1 hx
    have hs := ascii_addSegments (fun s hs => absurd hs List.not_mem_nil) s hs
    exact ascii_cons.2 ⟨by decide, hs⟩ x hx
  unfold normalPath
  split
  · exact ascii_cons.2 ⟨by decide, .of_subset (List.dropWhile_sublist _).subset hpath⟩
  · exact hpath

/-! ## Hosts -/

theorem lt_of_isSome_hexValue? {x : Char} (h : (hexValue? x).isSome) : x.toNat < 128 := by
  unfold hexValue? at h
  split at h
  · exact lt_of_isDigit ‹_›
  · split at h
    · rename_i hlower
      exact Nat.lt_of_le_of_lt (Char.le_def.1 hlower.2) (by decide)
    · split at h
      · rename_i hupper
        exact Nat.lt_of_le_of_lt (Char.le_def.1 hupper.2) (by decide)
      · cases h

/-- What is accepted as a host is ASCII. -/
theorem yields_hostName : Yields IsAscii (hostName cs) := by
  unfold hostName
  split
  · rename_i inner
    split
    · rename_i hnumeric
      obtain ⟨hlast, hall⟩ := hnumeric
      rw [Yields.ok, isAscii_ofList]
      refine Ascii.map_toLower (ascii_cons.2 ⟨by decide, ?_⟩)
      rcases List.eq_nil_or_concat inner with rfl | ⟨front, x, rfl⟩
      · exact ascii_nil
      · rw [List.concat_eq_append, ← List.cons_append, List.getLast?_concat] at hlast
        cases hlast
        have hclose : Ascii [']'] := by decide
        rw [List.concat_eq_append]
        refine ascii_append.2 ⟨fun x hx => ?_, hclose⟩
        have hx := List.all_eq_true.1 hall x (by simpa using hx)
        simp only [Bool.or_eq_true, beq_iff_eq] at hx
        rcases hx with (hx | rfl) | rfl
        · exact lt_of_isSome_hexValue? hx
        · decide
        · decide
    · exact .error
  · dsimp only
    split
    · exact .error
    · rename_i hallowed
      split
      · exact .error
      · rw [Yields.ok, isAscii_ofList]
        intro x hx
        rw [Bool.not_eq_true, List.any_eq_false] at hallowed
        have hx := hallowed x hx
        simp only [isForbiddenInHost, Bool.or_eq_true, decide_eq_true_eq] at hx
        omega

theorem ascii_userText : Ascii (userText cs) := by
  have huser {cs : List Char} : Ascii (percentEncode userSpecial cs) :=
    ascii_percentEncode fun c hc => by simp [userSpecial, pathSpecial_of_isControl hc]
  unfold userText
  dsimp only
  repeat' split
  all_goals simp [huser]

theorem ascii_toDigits (n : Nat) : Ascii (Nat.toDigits 10 n) :=
  fun _ hx => lt_of_isDigit (Nat.isDigit_of_mem_toDigits (by decide) (by decide) hx)

theorem yields_serviceText {number : Option (List Char)} :
    Yields Ascii (serviceText scheme number) := by
  unfold serviceText
  dsimp only
  repeat' split
  all_goals simp [ascii_toDigits]

theorem yields_readAuthority : Yields IsAscii (readAuthority scheme cs) := by
  -- what is done with a host, however it was read
  have hrest {host : String} (hhost : IsAscii host) :
      Yields IsAscii (serviceText scheme (splitAuthority cs).service >>= fun service =>
        .ok (String.ofList (((splitAuthority cs).user.map userText).getD []) ++ host ++
          String.ofList service)) := by
    have huser : Ascii (((splitAuthority cs).user.map userText).getD []) := by
      cases (splitAuthority cs).user with
      | none => exact ascii_nil
      | some user => exact ascii_userText
    exact yields_serviceText.bind fun service hservice => by simp [huser, hhost, hservice]
  unfold readAuthority
  dsimp only
  split
  · split
    · exact .error
    · refine yields_hostName.bind fun host hhost => ?_
      split
      · exact .error
      · exact hrest hhost
  · split
    · exact .error
    · refine Yields.bind (Yields.ok.2 (isAscii_ofList.2 (ascii_percentEncode fun _ => id)))
        fun host hhost => ?_
      split
      · exact .error
      · exact hrest hhost

/-! ## Whole addresses -/

theorem yields_fileBody :
    Yields (fun parts => IsAscii parts.1 ∧ IsAscii parts.2) (fileBody cs) := by
  unfold fileBody
  split
  · rename_i rest _
    -- a host may still be dropped for a drive letter
    have hplace (host : String) (path : List Char) (hhost : IsAscii host) :
        Yields (fun parts => IsAscii parts.1 ∧ IsAscii parts.2)
          (.ok (if beginsWithDrive (path.dropWhile (· == '/')) then "" else host,
            String.ofList (normalPath true (path.dropWhile (· == '/'))))) := by
      split <;> simp [hhost]
    dsimp only
    split
    · exact hplace "" rest isAscii_empty
    · split
      · exact hplace "" rest isAscii_empty
      · refine yields_hostName.bind fun host hhost => ?_
        refine hplace _ (rest.drop (rest.takeWhile (· != '/')).length) ?_
        split <;> simp [hhost]
  · exact Yields.ok.2 ⟨isAscii_empty, isAscii_ofList.2 ascii_normalPath⟩
  · exact Yields.ok.2 ⟨isAscii_empty, isAscii_ofList.2 ascii_normalPath⟩

theorem yields_hostedBody :
    Yields (fun parts => IsAscii parts.1 ∧ IsAscii parts.2) (hostedBody scheme cs) :=
  yields_readAuthority.bind fun _ htext => Yields.ok.2 ⟨htext, isAscii_ofList.2 ascii_normalPath⟩

theorem yields_plainBody :
    Yields (fun parts => (∀ a, parts.1 = some a → IsAscii a) ∧ IsAscii parts.2)
      (plainBody scheme cs) := by
  unfold plainBody
  split
  · refine yields_readAuthority.bind fun text htext => ?_
    split <;> simp [pure, Except.pure, htext]
  · simp [pure, Except.pure]
  · simp [pure, Except.pure, ascii_percentEncode fun _ => id]

/-- An address is ASCII if its parts are. -/
theorem isAscii_ofParts {p : Parts} (hscheme : IsAscii p.scheme)
    (hauthority : ∀ a, p.authority = some a → IsAscii a) (hpath : IsAscii p.path)
    (hquery : ∀ q, p.query = some q → IsAscii q)
    (hfragment : ∀ f, p.fragment = some f → IsAscii f) : IsAscii (ofParts p).text := by
  have hmark : IsAscii ":" ∧ IsAscii "//" ∧ IsAscii "/." ∧ IsAscii "?" ∧ IsAscii "#" := by decide
  obtain ⟨hcolon, hslashes, hdot, hquestion, hnumber⟩ := hmark
  simp only [ofParts, isAscii_append]
  refine ⟨⟨⟨⟨⟨hscheme, hcolon⟩, ?_⟩, hpath⟩, ?_⟩, ?_⟩
  · cases ha : p.authority with
    | none => dsimp only; split <;> simp [hdot]
    | some a => simp [hslashes, hauthority a ha]
  · cases hq : p.query <;> simp_all
  · cases hf : p.fragment <;> simp_all

theorem isAscii_of_splitScheme? {rest : List Char} (h : splitScheme? cs = some (scheme, rest)) :
    IsAscii scheme := by
  unfold splitScheme? at h
  split at h
  · split at h
    · cases h
      refine isAscii_ofList.2 (Ascii.map_toLower fun x hx => ?_)
      have hx := List.all_eq_true.1 List.all_takeWhile x hx
      simp only [isSchemeChar, Bool.or_eq_true, beq_iff_eq] at hx
      rcases hx with ((hx | rfl) | rfl) | rfl
      · exact lt_of_isAlphanum hx
      all_goals decide
    · cases h
  · cases h

/-- **Whatever is read as an address is ASCII.** -/
theorem yields_parse (input : String) : Yields (fun u => IsAscii u.text) (parse input) := by
  unfold parse
  split
  · exact .error
  · rename_i scheme rest hscheme
    have hencoded {special : Char → Bool} (h : ∀ c, isControl c → special c)
        (part : Option (List Char)) :
        ∀ t, part.map (fun cs => String.ofList (percentEncode special cs)) = some t →
          IsAscii t := by
      intro t ht
      obtain ⟨cs, -, rfl⟩ := Option.map_eq_some_iff.1 ht
      exact isAscii_ofList.2 (ascii_percentEncode h)
    have hwhole (parts : Option String × String)
        (h : (∀ a, parts.1 = some a → IsAscii a) ∧ IsAscii parts.2) :
        IsAscii (ofParts
          { scheme, authority := parts.1, path := parts.2
            query := (splitTail rest).2.1.map fun q => String.ofList (percentEncode
              (fun c => querySpecial c || (isSpecial scheme && c == '\'')) q)
            fragment := (splitTail rest).2.2.map fun f =>
              String.ofList (percentEncode fragmentSpecial f) }).text := by
      refine isAscii_ofParts (isAscii_of_splitScheme? hscheme) h.1 h.2 (hencoded ?_ _)
        (hencoded ?_ _)
      · intro c hc
        simp [querySpecial, hc]
      · intro c hc
        simp [fragmentSpecial, hc]
    have hlocal (authority path : String) (h : IsAscii authority ∧ IsAscii path) :=
      hwhole (some authority, path) ⟨fun _ ha => Option.some.inj ha ▸ h.1, h.2⟩
    dsimp only
    split
    · exact yields_fileBody.bind fun parts h => Yields.ok.2 (hlocal parts.1 parts.2 h)
    · split
      · exact yields_hostedBody.bind fun parts h => Yields.ok.2 (hlocal parts.1 parts.2 h)
      · exact yields_plainBody.bind fun parts h => Yields.ok.2 (hwhole parts h)

theorem isAscii_of_parse {input : String} {u : Uri} (h : parse input = .ok u) : IsAscii u.text :=
  yields_parse input u h

/-- Texts joined by an ASCII separator are ASCII if each is. -/
theorem isAscii_intercalate {sep : String} {parts : List String} (hsep : IsAscii sep)
    (h : ∀ p ∈ parts, IsAscii p) : IsAscii (sep.intercalate parts) := by
  induction parts with
  | nil => exact isAscii_empty
  | cons first rest ih =>
    obtain ⟨hfirst, hrest⟩ := List.forall_mem_cons.1 h
    cases rest with
    | nil => rwa [String.intercalate_singleton]
    | cons second rest => simp [String.intercalate_cons_cons, hfirst, hsep, ih hrest]

/-- The address of a file is ASCII, whatever the name of the file. -/
theorem isAscii_ofFilePath (path : String) : IsAscii (ofFilePath path).text := by
  have hpath : IsAscii (FilePath.ofParts ((FilePath.parts path).map fun part =>
      String.ofList (percentEncode segmentSpecial part.toList))) := by
    have hslash : IsAscii "/" := by decide
    refine isAscii_append.2 ⟨hslash, isAscii_intercalate hslash fun segment hsegment => ?_⟩
    obtain ⟨part, -, rfl⟩ := List.mem_map.1 hsegment
    refine isAscii_ofList.2 (ascii_percentEncode fun c hc => ?_)
    simp [segmentSpecial, pathSpecial_of_isControl hc]
  exact isAscii_ofParts (show IsAscii "file" by decide) (by simp) hpath (by simp) (by simp)

/-! ## Names -/

theorem subset_of_mem_splitSlashes {part : List Char} (h : part ∈ FilePath.splitSlashes cs) :
    part ⊆ cs := by
  induction cs generalizing part with
  | nil =>
    obtain rfl := List.mem_singleton.1 h
    exact List.Subset.refl _
  | cons c cs ih =>
    rw [FilePath.splitSlashes] at h
    split at h
    · rcases List.mem_cons.1 h with rfl | h
      · exact List.nil_subset _
      · exact List.subset_cons_of_subset c (ih h)
    · split at h
      · obtain rfl := List.mem_singleton.1 h
        exact List.cons_subset_cons c (List.nil_subset _)
      · rename_i first rest hsplit
        rcases List.mem_cons.1 h with rfl | h
        · exact List.cons_subset_cons c (ih (hsplit ▸ List.mem_cons_self))
        · exact List.subset_cons_of_subset c (ih (hsplit ▸ List.mem_cons_of_mem _ h))

/-- The parts of a path are pieces of it. -/
theorem subset_of_mem_parts {path part : String} (h : part ∈ FilePath.parts path) :
    part.toList ⊆ path.toList := by
  have hmem : part ∈ (FilePath.splitSlashes path.toList).map String.ofList := by
    unfold FilePath.parts at h
    dsimp only at h
    split at h
    · rename_i rest hpieces
      rw [hpieces]
      rcases List.mem_cons.1 h with rfl | h
      · exact List.mem_cons_self
      · exact List.mem_cons_of_mem _ (List.mem_filter.1 h).1
    · exact (List.mem_filter.1 h).1
  obtain ⟨piece, hpiece, rfl⟩ := List.mem_map.1 hmem
  rw [String.toList_ofList]
  exact subset_of_mem_splitSlashes hpiece

theorem subset_of_stem? {path stem : String} (h : FilePath.stem? path = some stem) :
    stem.toList ⊆ path.toList := by
  obtain ⟨name, hname, rfl⟩ := Option.map_eq_some_iff.1 h
  have hpart : name.toList ⊆ path.toList := by
    unfold FilePath.fileName? at hname
    split at hname
    · cases hname
    · cases hname
    · exact subset_of_mem_parts (List.mem_of_getLast? hname)
  refine List.Subset.trans ?_ hpart
  unfold FilePath.splitExtension
  dsimp only
  split
  · exact List.Subset.refl _
  · exact List.Subset.refl _
  · rename_i last before hbefore _
    intro x hx
    rw [String.toList_ofList, List.mem_reverse] at hx
    have hmem : x ∈ name.toList.reverse.dropWhile (· != '.') := by
      rw [‹name.toList.reverse.dropWhile (· != '.') = _›]
      exact List.mem_cons_of_mem _ hx
    exact List.mem_reverse.1 ((List.dropWhile_sublist _).subset hmem)

theorem path_subset (u : Uri) : u.path.toList ⊆ u.text.toList := by
  have hbody : u.body ⊆ u.text.toList := by
    refine List.Subset.trans ((List.takeWhile_sublist _).subset) ?_
    refine List.Subset.trans ((List.takeWhile_sublist _).subset) ?_
    exact List.Subset.trans (List.drop_subset _ _) (List.dropWhile_sublist _).subset
  refine List.Subset.trans ?_ hbody
  unfold path
  rw [String.toList_ofList]
  split
  · rename_i rest hrest
    rw [hrest]
    exact List.Subset.trans (List.dropWhile_sublist _).subset
      (List.subset_cons_of_subset _ (List.subset_cons_self _ _))
  · rename_i rest hrest
    rw [hrest]
    exact List.subset_cons_of_subset _ (List.subset_cons_self _ _)
  · exact List.Subset.refl _

/-- **The name of a document is a piece of its address.** -/
theorem isAscii_bareName {u : Uri} (h : IsAscii u.text) : IsAscii u.bareName := by
  refine Ascii.of_subset (List.Subset.trans ?_ u.path_subset) h
  unfold bareName
  cases hstem : FilePath.stem? u.path with
  | none => exact List.Subset.refl _
  | some stem => exact subset_of_stem? hstem

end RobotSource.Uri
