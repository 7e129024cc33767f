import Bellbook.Base.Hash
import Mathlib.Data.List.Induction
import Mathlib.Data.List.TakeWhile

/-!
# Command-line arguments (`bin/bellbook.rs`)

`parse` sorts the tokens of a recording command into flags with one value, flags with a run of values,
flags without a value, and positionals. A typo must not become a value: a flag that is not declared is
an error, a run of values ends at the next token with dashes, and a flag with one value takes no
declared flag for it and is given once.

`Spells` is the grammar. `parse` succeeds exactly on what some arguments spell and collects each of
them once; it fails exactly where the arguments before spell the tokens before, and the next token is
at fault (`parse_exact`).
-/

namespace Bellbook

open Std

/-- A parsed flag set. -/
structure Parsed where
  singles : ExtTreeMap String String := ∅
  multis : ExtTreeMap String (List String) := ∅
  bools : ExtTreeSet String := ∅
  positionals : List String := []

/-- Why the arguments are refused. -/
inductive ArgError where
  | noValues (name : String)
  | noValue (name : String)
  | flagAsValue (name value : String)
  | repeated (name : String)
  | unknown (name : String)
  deriving DecidableEq

/-- The flags a command declares. -/
structure Flags where
  singles : List String
  multi : List String
  bools : List String

/-- `strip_prefix("--")`. -/
def stripDashes (tok : String) : Option String :=
  match tok.toList with
  | '-' :: '-' :: name => some (String.ofList name)
  | _ => none

def isValue (tok : String) : Bool := (stripDashes tok).isNone

namespace Parsed

def addPositional (p : Parsed) (tok : String) : Parsed :=
  { p with positionals := p.positionals ++ [tok] }

def addBool (p : Parsed) (name : String) : Parsed := { p with bools := p.bools.insert name }

def addMulti (p : Parsed) (name : String) (vals : List String) : Parsed :=
  { p with multis := p.multis.insert name ((p.multis[name]?).getD [] ++ vals) }

def addSingle (p : Parsed) (name val : String) : Parsed :=
  { p with singles := p.singles.insert name val }

end Parsed

namespace Flags

variable (f : Flags)

/-- `is_flag`. -/
def isFlag (tok : String) : Bool :=
  (stripDashes tok).any fun name => name ∈ f.singles || name ∈ f.multi || name ∈ f.bools

/-- Every recording command takes `--sign-key`. -/
def takesOne (name : String) : Bool := name ∈ f.singles || name = "sign-key"

/-- The loop of `parse`. -/
def parseFrom (p : Parsed) : List String → Except ArgError Parsed
  | [] => .ok p
  | tok :: rest =>
    match stripDashes tok with
    | none => parseFrom (p.addPositional tok) rest
    | some name =>
      if name ∈ f.bools then parseFrom (p.addBool name) rest
      else if name ∈ f.multi then
        if rest.takeWhile isValue = [] then .error (.noValues name)
        else parseFrom (p.addMulti name (rest.takeWhile isValue)) (rest.dropWhile isValue)
      else if f.takesOne name then
        match rest with
        | [] => .error (.noValue name)
        | val :: rest =>
          if f.isFlag val then .error (.flagAsValue name val)
          else if name ∈ p.singles then .error (.repeated name)
          else parseFrom (p.addSingle name val) rest
      else .error (.unknown name)
termination_by toks => toks.length
decreasing_by
  all_goals simp only [List.length_cons]
  · exact Nat.lt_succ_self _
  · exact Nat.lt_succ_self _
  · exact Nat.lt_succ_of_le (List.dropWhile_suffix _).length_le
  · omega

/-- `parse`. -/
def parse (toks : List String) : Except ArgError Parsed := f.parseFrom {} toks

end Flags

/-! ## The grammar -/

/-- An argument. -/
inductive Arg where
  | positional (tok : String)
  | bool (name : String)
  | multi (name : String) (vals : List String)
  | single (name val : String)
  deriving DecidableEq

/-- A flag as it is typed. -/
def dashes (name : String) : String := "--" ++ name

def Arg.singleName : Arg → Option String
  | .single name _ => some name
  | _ => none

def Parsed.add (p : Parsed) : Arg → Parsed
  | .positional tok => p.addPositional tok
  | .bool name => p.addBool name
  | .multi name vals => p.addMulti name vals
  | .single name val => p.addSingle name val

/-- What is collected from the arguments. -/
def collect (args : List Arg) : Parsed := args.foldl Parsed.add {}

/-- The names that were given one value. -/
def singleNames (args : List Arg) : List String := args.filterMap Arg.singleName

namespace Flags

variable (f : Flags)

/-- The flag takes one value. -/
def Single (name : String) : Prop := name ∉ f.bools ∧ name ∉ f.multi ∧ f.takesOne name = true

instance (name : String) : Decidable (f.Single name) := inferInstanceAs (Decidable (_ ∧ _ ∧ _))

/-- The flag takes a run of values. -/
def Multi (name : String) : Prop := name ∉ f.bools ∧ name ∈ f.multi

/-- The tokens do not go on with a value. -/
def Ends (toks : List String) : Prop := ∀ tok ∈ toks.head?, isValue tok = false

/-- The arguments spell the tokens, and what comes after. A run of values goes on as far as it can. -/
inductive Spells : List Arg → List String → List String → Prop
  | nil {todo : List String} : Spells [] [] todo
  | positional {tok : String} {args : List Arg} {toks todo : List String} :
      isValue tok = true → Spells args toks todo → Spells (.positional tok :: args) (tok :: toks) todo
  | bool {name : String} {args : List Arg} {toks todo : List String} :
      name ∈ f.bools → Spells args toks todo → Spells (.bool name :: args) (dashes name :: toks) todo
  | multi {name : String} {vals : List String} {args : List Arg} {toks todo : List String} :
      f.Multi name → vals ≠ [] → (∀ val ∈ vals, isValue val = true) → Ends (toks ++ todo) →
      Spells args toks todo → Spells (.multi name vals :: args) (dashes name :: (vals ++ toks)) todo
  | single {name val : String} {args : List Arg} {toks todo : List String} :
      f.Single name → f.isFlag val = false → Spells args toks todo →
      Spells (.single name val :: args) (dashes name :: val :: toks) todo

/-- The next token is at fault, after the arguments. -/
inductive Faulty (args : List Arg) : List String → ArgError → Prop
  | noValues {name : String} {toks : List String} :
      f.Multi name → Ends toks → Faulty args (dashes name :: toks) (.noValues name)
  | noValue {name : String} : f.Single name → Faulty args [dashes name] (.noValue name)
  | flagAsValue {name val : String} {toks : List String} : f.Single name → f.isFlag val = true →
      Faulty args (dashes name :: val :: toks) (.flagAsValue name val)
  | repeated {name val : String} {toks : List String} :
      f.Single name → f.isFlag val = false → name ∈ singleNames args →
      Faulty args (dashes name :: val :: toks) (.repeated name)
  | unknown {name : String} {toks : List String} :
      name ∉ f.bools → name ∉ f.multi → f.takesOne name = false →
      Faulty args (dashes name :: toks) (.unknown name)

end Flags

variable {f : Flags} {seen args : List Arg} {toks todo : List String}

/-! ## Tokens -/

theorem stripDashes_dashes (name : String) : stripDashes (dashes name) = some name := by
  have hlist : (dashes name).toList = '-' :: '-' :: name.toList := String.toList_append
  rw [stripDashes, hlist]
  exact congrArg some String.ofList_toList

theorem eq_dashes {tok name : String} (h : stripDashes tok = some name) : tok = dashes name := by
  unfold stripDashes at h
  split at h
  · next chars heq =>
    obtain rfl := Option.some.inj h
    have hlist : (dashes (String.ofList chars)).toList = '-' :: '-' :: (String.ofList chars).toList :=
      String.toList_append
    rw [← String.toList_inj, heq, hlist, String.toList_ofList]
  · cases h

theorem stripDashes_of_isValue {tok : String} (h : isValue tok = true) : stripDashes tok = none := by
  simpa [isValue] using h

@[simp] theorem isValue_dashes (name : String) : isValue (dashes name) = false := by
  rw [isValue, stripDashes_dashes]
  rfl

theorem dashes_inj {name other : String} (h : dashes name = dashes other) : name = other := by
  have heq := congrArg stripDashes h
  rw [stripDashes_dashes, stripDashes_dashes] at heq
  exact Option.some.inj heq

/-- A run of values is taken as a whole. -/
theorem takeWhile_run {vals : List String} (hvals : ∀ val ∈ vals, isValue val = true)
    (hends : Flags.Ends toks) : (vals ++ toks).takeWhile isValue = vals ∧
      (vals ++ toks).dropWhile isValue = toks := by
  rw [List.takeWhile_append_of_pos hvals, List.dropWhile_append_of_pos hvals]
  cases toks with
  | nil => exact ⟨List.append_nil vals, rfl⟩
  | cons tok toks =>
    have htok : ¬isValue tok = true := by simpa using hends tok rfl
    rw [List.takeWhile_cons_of_neg htok, List.dropWhile_cons_of_neg htok, List.append_nil]
    exact ⟨rfl, rfl⟩

theorem takeWhile_eq_nil_iff : toks.takeWhile isValue = [] ↔ Flags.Ends toks := by
  cases toks with
  | nil => simp [Flags.Ends]
  | cons tok toks => simp [Flags.Ends, List.takeWhile_cons]

theorem ends_dropWhile (toks : List String) : Flags.Ends (toks.dropWhile isValue) := by
  intro tok htok
  have hnot := List.head?_dropWhile_not isValue toks
  rw [Option.mem_def.mp htok] at hnot
  simpa using hnot

/-! ## What is collected -/

theorem collect_concat (args : List Arg) (arg : Arg) : collect (args ++ [arg]) = (collect args).add arg := by
  rw [collect, List.foldl_append]
  rfl

theorem singleNames_concat (args : List Arg) (arg : Arg) :
    singleNames (args ++ [arg]) = singleNames args ++ arg.singleName.toList := by
  rw [singleNames, List.filterMap_append]
  cases harg : arg.singleName <;> simp [singleNames, harg]

theorem mem_singles_collect {name : String} (args : List Arg) :
    name ∈ (collect args).singles ↔ name ∈ singleNames args := by
  induction args using List.reverseRecOn with
  | nil => simp [collect, singleNames]
  | append_singleton args arg ih =>
    rw [collect_concat, singleNames_concat, List.mem_append, ← ih]
    cases arg with
    | single other val =>
      simp only [Parsed.add, Parsed.addSingle, ExtTreeMap.mem_insert, Arg.singleName, Option.toList_some,
        List.mem_singleton, Std.compare_eq_iff_eq]
      rw [or_comm, eq_comm (a := name)]
    | positional | bool | multi => simp [Parsed.add, Parsed.addPositional, Parsed.addBool, Parsed.addMulti, Arg.singleName]

theorem singleNames_nodup_concat {arg : Arg} (h : (singleNames args).Nodup)
    (hnew : ∀ name ∈ arg.singleName, name ∉ singleNames args) : (singleNames (args ++ [arg])).Nodup := by
  rw [singleNames_concat]
  refine List.nodup_append.mpr ⟨h, by cases arg.singleName <;> simp, fun name hin other hother heq => ?_⟩
  exact hnew name (by simpa [heq] using hother) hin

/-! ## What is spelled is parsed -/

theorem parseFrom_spells (seen : List Arg) (h : f.Spells args toks todo) (hnodup : (singleNames (seen ++ args)).Nodup) :
    f.parseFrom (collect seen) (toks ++ todo) = f.parseFrom (collect (seen ++ args)) todo := by
  induction h generalizing seen with
  | nil => rw [List.nil_append, List.append_nil]
  | @positional tok args toks todo htok _ ih =>
    rw [List.append_cons] at hnodup ⊢
    rw [← ih _ hnodup, collect_concat, List.cons_append, Flags.parseFrom, stripDashes_of_isValue htok]
    rfl
  | @bool name args toks todo hin _ ih =>
    rw [List.append_cons] at hnodup ⊢
    rw [← ih _ hnodup, collect_concat, List.cons_append, Flags.parseFrom, stripDashes_dashes]
    simp only [hin, if_true]
    rfl
  | @multi name vals args toks todo hname hne hvals hends _ ih =>
    rw [List.append_cons] at hnodup ⊢
    obtain ⟨htake, hdrop⟩ := takeWhile_run hvals hends
    rw [← ih _ hnodup, collect_concat, List.cons_append, List.append_assoc, Flags.parseFrom, stripDashes_dashes]
    simp only [hname.1, hname.2, htake, hdrop, hne, if_true, if_false]
    rfl
  | @single name val args toks todo hname hval _ ih =>
    rw [List.append_cons] at hnodup ⊢
    have hnew : name ∉ (collect seen).singles := by
      rw [mem_singles_collect]
      intro hin
      rw [singleNames, List.filterMap_append, List.filterMap_append] at hnodup
      exact (List.nodup_append.mp (List.nodup_append.mp hnodup).1).2.2 name hin name
        (by simp [Arg.singleName]) rfl
    rw [← ih _ hnodup, collect_concat, List.cons_append, List.cons_append, Flags.parseFrom, stripDashes_dashes]
    simp only [hname.1, hname.2.1, hname.2.2, hval, hnew, if_true, if_false, Bool.false_eq_true]
    rfl

theorem parseFrom_faulty {e : ArgError} (h : f.Faulty args todo e) :
    f.parseFrom (collect args) todo = .error e := by
  cases h with
  | noValues hname hends =>
    rw [Flags.parseFrom, stripDashes_dashes]
    simp only [hname.1, hname.2, takeWhile_eq_nil_iff.mpr hends, if_true, if_false]
  | noValue hname =>
    rw [Flags.parseFrom, stripDashes_dashes]
    simp only [hname.1, hname.2.1, hname.2.2, if_true, if_false]
  | flagAsValue hname hval =>
    rw [Flags.parseFrom, stripDashes_dashes]
    simp only [hname.1, hname.2.1, hname.2.2, hval, if_true, if_false]
  | repeated hname hval hin =>
    rw [Flags.parseFrom, stripDashes_dashes]
    simp only [hname.1, hname.2.1, hname.2.2, hval, (mem_singles_collect args).mpr hin, if_true, if_false,
      Bool.false_eq_true]
  | unknown hbool hmulti hone =>
    rw [Flags.parseFrom, stripDashes_dashes]
    simp only [hbool, hmulti, hone, if_false, Bool.false_eq_true]

/-- Where the arguments stop: at the end, or at a token that is at fault. -/
def Flags.Stops (f : Flags) (args : List Arg) (todo : List String) : Prop :=
  todo = [] ∨ ∃ e, f.Faulty args todo e

/-- Any tokens are spelled by some arguments, up to where these stop. -/
theorem exists_spells (f : Flags) (seen : List Arg) (toks : List String) (hseen : (singleNames seen).Nodup) :
    ∃ args done todo, toks = done ++ todo ∧ f.Spells args done todo ∧
      (singleNames (seen ++ args)).Nodup ∧ f.Stops (seen ++ args) todo := by
  induction hn : toks.length using Nat.strong_induction_on generalizing toks seen with
  | _ n ih =>
    subst hn
    -- an argument that the tokens begin with, and what the rest is
    have hfirst (arg : Arg) (head rest : List String) (heq : toks = head ++ rest) (hne : head ≠ [])
        (hnew : ∀ name ∈ arg.singleName, name ∉ singleNames seen)
        (hspell : ∀ args done todo, rest = done ++ todo → f.Spells args done todo →
          f.Spells (arg :: args) (head ++ done) todo) :
        ∃ args done todo, toks = done ++ todo ∧ f.Spells args done todo ∧
          (singleNames (seen ++ args)).Nodup ∧ f.Stops (seen ++ args) todo := by
      have hlt : rest.length < toks.length := by
        have hpos := List.length_pos_iff.mpr hne
        rw [heq, List.length_append]
        omega
      obtain ⟨args, done, todo, hrest, hargs, hnodup, hstops⟩ :=
        ih rest.length hlt (seen ++ [arg]) rest (singleNames_nodup_concat hseen hnew) rfl
      rw [← List.append_cons] at hnodup hstops
      exact ⟨arg :: args, head ++ done, todo, by rw [heq, hrest, List.append_assoc],
        hspell args done todo hrest hargs, hnodup, hstops⟩
    have hstop (h : f.Stops seen toks) : ∃ args done todo, toks = done ++ todo ∧ f.Spells args done todo ∧
        (singleNames (seen ++ args)).Nodup ∧ f.Stops (seen ++ args) todo :=
      ⟨[], [], toks, rfl, .nil, by rwa [List.append_nil], by rwa [List.append_nil]⟩
    cases toks with
    | nil => exact hstop (.inl rfl)
    | cons tok rest =>
      cases hname : stripDashes tok with
      | none =>
        have hvalue : isValue tok = true := by rw [isValue, hname]; rfl
        exact hfirst (.positional tok) [tok] rest rfl (by simp) (by simp [Arg.singleName])
          fun _ _ _ _ hargs => .positional hvalue hargs
      | some name =>
        obtain rfl := eq_dashes hname
        by_cases hbool : name ∈ f.bools
        · exact hfirst (.bool name) [dashes name] rest rfl (by simp) (by simp [Arg.singleName])
            fun _ _ _ _ hargs => .bool hbool hargs
        by_cases hmulti : name ∈ f.multi
        · by_cases hends : Flags.Ends rest
          · exact hstop (.inr ⟨_, .noValues ⟨hbool, hmulti⟩ hends⟩)
          · refine hfirst (.multi name (rest.takeWhile isValue))
              (dashes name :: rest.takeWhile isValue) (rest.dropWhile isValue)
              (by rw [List.cons_append, List.takeWhile_append_dropWhile]) (by simp) (by simp [Arg.singleName])
              fun args done todo heq hargs => ?_
            exact .multi ⟨hbool, hmulti⟩ (mt takeWhile_eq_nil_iff.mp hends)
              (fun val hval => List.mem_takeWhile_imp hval) (heq ▸ ends_dropWhile rest) hargs
        cases hone : f.takesOne name with
        | false => exact hstop (.inr ⟨_, .unknown hbool hmulti hone⟩)
        | true =>
          have hsingle : f.Single name := ⟨hbool, hmulti, hone⟩
          cases rest with
          | nil => exact hstop (.inr ⟨_, .noValue hsingle⟩)
          | cons val rest =>
            cases hval : f.isFlag val with
            | true => exact hstop (.inr ⟨_, .flagAsValue hsingle hval⟩)
            | false =>
              by_cases hin : name ∈ singleNames seen
              · exact hstop (.inr ⟨_, .repeated hsingle hval hin⟩)
              · exact hfirst (.single name val) [dashes name, val] rest rfl (by simp)
                  (by simpa [Arg.singleName] using hin) fun _ _ _ _ hargs => .single hsingle hval hargs

theorem Flags.Single.not_multi {name : String} (h : f.Single name) : ¬f.Multi name :=
  fun hmulti => h.2.1 hmulti.2

/-- The arguments that tokens spell are unique. -/
theorem spells_unique {args' : List Arg} (h : f.Spells args toks todo) (h' : f.Spells args' toks todo) :
    args = args' := by
  induction h generalizing args' with
  | nil =>
    cases h'
    rfl
  | @positional tok args toks todo htok _ ih =>
    generalize hwhole : tok :: toks = whole at h'
    cases h' with
    | nil => cases hwhole
    | positional _ hargs =>
      obtain ⟨rfl, rfl⟩ := List.cons.inj hwhole
      rw [ih hargs]
    | bool | multi | single =>
      rw [(List.cons.inj hwhole).1, isValue_dashes] at htok
      cases htok
  | @bool name args toks todo hin _ ih =>
    generalize hwhole : dashes name :: toks = whole at h'
    cases h' with
    | nil => cases hwhole
    | positional htok =>
      rw [← (List.cons.inj hwhole).1, isValue_dashes] at htok
      cases htok
    | bool _ hargs =>
      obtain ⟨hname, rfl⟩ := List.cons.inj hwhole
      rw [dashes_inj hname, ih hargs]
    | multi hmulti => exact absurd (dashes_inj (List.cons.inj hwhole).1 ▸ hin) hmulti.1
    | single hsingle => exact absurd (dashes_inj (List.cons.inj hwhole).1 ▸ hin) hsingle.1
  | @multi name vals args toks todo hmulti _ hvals hends _ ih =>
    generalize hwhole : dashes name :: (vals ++ toks) = whole at h'
    cases h' with
    | nil => cases hwhole
    | positional htok =>
      rw [← (List.cons.inj hwhole).1, isValue_dashes] at htok
      cases htok
    | bool hin => exact absurd hin (dashes_inj (List.cons.inj hwhole).1 ▸ hmulti.1)
    | @multi _ vals' _ toks' _ _ _ hvals' hends' hargs =>
      obtain ⟨hname, htoks⟩ := List.cons.inj hwhole
      obtain ⟨htake, hdrop⟩ := takeWhile_run hvals hends
      obtain ⟨htake', hdrop'⟩ := takeWhile_run hvals' hends'
      have hsame : vals ++ (toks ++ todo) = vals' ++ (toks' ++ todo) := by
        rw [← List.append_assoc, htoks, List.append_assoc]
      rw [hsame, htake'] at htake
      rw [hsame, hdrop'] at hdrop
      obtain rfl := List.append_cancel_right hdrop
      rw [dashes_inj hname, htake, ih hargs]
    | single hsingle => exact absurd (dashes_inj (List.cons.inj hwhole).1 ▸ hmulti) hsingle.not_multi
  | @single name val args toks todo hsingle _ _ ih =>
    generalize hwhole : dashes name :: val :: toks = whole at h'
    cases h' with
    | nil => cases hwhole
    | positional htok =>
      rw [← (List.cons.inj hwhole).1, isValue_dashes] at htok
      cases htok
    | bool hin => exact absurd hin (dashes_inj (List.cons.inj hwhole).1 ▸ hsingle.1)
    | multi hmulti =>
      exact absurd hmulti (dashes_inj (List.cons.inj hwhole).1 ▸ hsingle).not_multi
    | single _ _ hargs =>
      obtain ⟨hname, htoks⟩ := List.cons.inj hwhole
      obtain ⟨rfl, rfl⟩ := List.cons.inj htoks
      rw [dashes_inj hname, ih hargs]

/-! ## The arguments in what is collected -/

/-- The values that were given to a flag. -/
def Arg.valuesOf (name : String) : Arg → List String
  | .multi other vals => if other = name then vals else []
  | _ => []

def Arg.positionalTok : Arg → Option String
  | .positional tok => some tok
  | _ => none

/-- Each argument is in the flag set, once, and nothing else is. -/
structure Collects (args : List Arg) (p : Parsed) : Prop where
  singles : ∀ name val, p.singles[name]? = some val ↔ Arg.single name val ∈ args
  multis : ∀ name, name ∈ p.multis ↔ ∃ vals, Arg.multi name vals ∈ args
  values : ∀ name, (p.multis[name]?).getD [] = args.flatMap (Arg.valuesOf name)
  bools : ∀ name, name ∈ p.bools ↔ Arg.bool name ∈ args
  positionals : p.positionals = args.filterMap Arg.positionalTok

namespace Collects

variable {p : Parsed}

theorem positional (h : Collects args p) (tok : String) :
    Collects (args ++ [.positional tok]) (p.addPositional tok) where
  singles := by simpa [Parsed.addPositional] using h.singles
  multis := by simpa [Parsed.addPositional] using h.multis
  values := by simpa [Parsed.addPositional, Arg.valuesOf] using h.values
  bools := by simpa [Parsed.addPositional] using h.bools
  positionals := by simp [Parsed.addPositional, Arg.positionalTok, h.positionals]

theorem bool (h : Collects args p) (name : String) : Collects (args ++ [.bool name]) (p.addBool name) where
  singles := by simpa [Parsed.addBool] using h.singles
  multis := by simpa [Parsed.addBool] using h.multis
  values := by simpa [Parsed.addBool, Arg.valuesOf] using h.values
  bools other := by
    rw [Parsed.addBool, ExtTreeSet.mem_insert, h.bools, Std.compare_eq_iff_eq, List.mem_append,
      List.mem_singleton, Arg.bool.injEq, or_comm, eq_comm]
  positionals := by simp [Parsed.addBool, Arg.positionalTok, h.positionals]

theorem multi (h : Collects args p) (name : String) (vals : List String) :
    Collects (args ++ [.multi name vals]) (p.addMulti name vals) where
  singles := by simpa [Parsed.addMulti] using h.singles
  multis other := by
    simp only [Parsed.addMulti, ExtTreeMap.mem_insert, h.multis, Std.compare_eq_iff_eq, List.mem_append,
      List.mem_singleton, Arg.multi.injEq]
    constructor
    · rintro (rfl | ⟨vals', hin⟩)
      · exact ⟨vals, .inr ⟨rfl, rfl⟩⟩
      · exact ⟨vals', .inl hin⟩
    · rintro ⟨vals', hin | ⟨rfl, -⟩⟩
      · exact .inr ⟨vals', hin⟩
      · exact .inl rfl
  values other := by
    rw [Parsed.addMulti, ExtTreeMap.getElem?_insert, List.flatMap_append, List.flatMap_singleton, ← h.values other,
      Arg.valuesOf]
    by_cases heq : name = other
    · subst heq
      rw [if_pos (Std.compare_eq_iff_eq.mpr rfl), if_pos rfl]
      rfl
    · rw [if_neg (mt Std.compare_eq_iff_eq.mp heq), if_neg heq, List.append_nil]
  bools := by simpa [Parsed.addMulti] using h.bools
  positionals := by simp [Parsed.addMulti, Arg.positionalTok, h.positionals]

theorem single (h : Collects args p) {name : String} (hnew : name ∉ singleNames args) (val : String) :
    Collects (args ++ [.single name val]) (p.addSingle name val) where
  singles other val' := by
    rw [Parsed.addSingle, ExtTreeMap.getElem?_insert, List.mem_append, List.mem_singleton, Arg.single.injEq]
    by_cases heq : name = other
    · subst heq
      -- the flag was not given before
      have hnone : Arg.single name val' ∉ args :=
        fun hin => hnew (List.mem_filterMap.mpr ⟨_, hin, rfl⟩)
      rw [if_pos (Std.compare_eq_iff_eq.mpr rfl), Option.some.injEq, or_iff_right hnone, and_iff_right rfl, eq_comm]
    · rw [if_neg (mt Std.compare_eq_iff_eq.mp heq), h.singles]
      exact (or_iff_left fun hother => heq hother.1.symm).symm
  multis := by simpa [Parsed.addSingle] using h.multis
  values := by simpa [Parsed.addSingle, Arg.valuesOf] using h.values
  bools := by simpa [Parsed.addSingle] using h.bools
  positionals := by simp [Parsed.addSingle, Arg.positionalTok, h.positionals]

end Collects

theorem collects_collect (args : List Arg) (hnodup : (singleNames args).Nodup) :
    Collects args (collect args) := by
  induction args using List.reverseRecOn with
  | nil => constructor <;> simp [collect]
  | append_singleton args arg ih =>
    rw [singleNames_concat] at hnodup
    obtain ⟨hargs, -, hnew⟩ := List.nodup_append.mp hnodup
    have hcollects := ih hargs
    rw [collect_concat]
    cases arg with
    | positional tok => exact hcollects.positional tok
    | bool name => exact hcollects.bool name
    | multi name vals => exact hcollects.multi name vals
    | single name val =>
      exact hcollects.single (fun hin => hnew name hin name (by simp [Arg.singleName]) rfl) val

theorem parse_spells {done : List String} (h : f.Spells args done todo) (hnodup : (singleNames args).Nodup) :
    f.parse (done ++ todo) = f.parseFrom (collect args) todo :=
  parseFrom_spells [] h hnodup

theorem parse_complete {done : List String} (h : f.Spells args done []) (hnodup : (singleNames args).Nodup) :
    f.parse done = .ok (collect args) := by
  have hparse := parse_spells h hnodup
  rwa [List.append_nil, Flags.parseFrom] at hparse

/-- **What the arguments mean.** `parse` succeeds exactly on the tokens that some arguments spell in which no
flag is given two single values; these arguments are unique, and each is in the flag set once. It fails
exactly where the arguments before spell the tokens before, and the next token is at fault. -/
theorem parse_exact (f : Flags) (toks : List String) :
    (∀ p, f.parse toks = .ok p ↔
      ∃ args, f.Spells args toks [] ∧ (singleNames args).Nodup ∧ collect args = p) ∧
      (∀ e, f.parse toks = .error e ↔ ∃ args done todo, toks = done ++ todo ∧ f.Spells args done todo ∧
        (singleNames args).Nodup ∧ f.Faulty args todo e) ∧
      ∀ args, f.Spells args toks [] → (singleNames args).Nodup → Collects args (collect args) ∧
        ∀ args', f.Spells args' toks [] → args' = args := by
  obtain ⟨args, done, todo, heq, hargs, hnodup, hstops⟩ := exists_spells f [] toks List.nodup_nil
  rw [List.nil_append] at hnodup hstops
  refine ⟨fun p => ⟨fun hparse => ?_, ?_⟩, fun e => ⟨fun hparse => ?_, ?_⟩, fun args hargs hnodup =>
    ⟨collects_collect args hnodup, fun args' hargs' => spells_unique hargs' hargs⟩⟩
  · rw [heq, parse_spells hargs hnodup] at hparse
    rcases hstops with rfl | ⟨e, hfault⟩
    · rw [Flags.parseFrom, Except.ok.injEq] at hparse
      rw [List.append_nil] at heq
      exact ⟨args, heq ▸ hargs, hnodup, hparse⟩
    · rw [parseFrom_faulty hfault] at hparse
      cases hparse
  · rintro ⟨args, hargs, hnodup, rfl⟩
    exact parse_complete hargs hnodup
  · have hrest := hparse
    rw [heq, parse_spells hargs hnodup] at hrest
    rcases hstops with rfl | ⟨e', hfault⟩
    · rw [Flags.parseFrom] at hrest
      cases hrest
    · rw [parseFrom_faulty hfault] at hrest
      cases hrest
      exact ⟨args, done, todo, heq, hargs, hnodup, hfault⟩
  · rintro ⟨args, done, todo, rfl, hargs, hnodup, hfault⟩
    rw [parse_spells hargs hnodup, parseFrom_faulty hfault]

end Bellbook
