/-!
This module contains the types of the bags of plain lists, and what they say about the order of the
entries.
-/

inductive PlistKTNum where
  | plist
  | ndense
  | dense
  | denseNhom
  | denseNhomSsort
  | denseNhomNsort
  | empty
  | hom
  | homNsort
  | homSsort
  | tab
  | tabNsort
  | tabSsort
  | tabRect
  | tabRectNsort
  | tabRectSsort
  | cyc
  | cycNsort
  | cycSsort
  | ffe
  deriving DecidableEq, Repr

inductive ListFilter where
  | isDense
  | isNdense
  | isHomog
  | isNhomog
  | isTable
  | isRect
  | isSsort
  | isNsort
  deriving DecidableEq, Repr

namespace PlistKTNum

-- The columns `FN_IS_SSORT` and `FN_IS_NSORT` of the table `HasFiltTab`
def isSsort (tnum : PlistKTNum) : Bool :=
  match tnum with
  | denseNhomSsort | empty | homSsort | tabSsort | tabRectSsort | cycSsort => true
  | _ => false

def isNsort (tnum : PlistKTNum) : Bool :=
  match tnum with
  | denseNhomNsort | homNsort | tabNsort | tabRectNsort | cycNsort => true
  | _ => false

-- The columns `FN_IS_TABLE`, `FN_IS_RECT`, `FN_IS_HOMOG` and `FN_IS_NHOMOG`
def isTable (tnum : PlistKTNum) : Bool :=
  match tnum with
  | tab | tabNsort | tabSsort | tabRect | tabRectNsort | tabRectSsort => true
  | _ => false

def isRect (tnum : PlistKTNum) : Bool :=
  match tnum with
  | tabRect | tabRectNsort | tabRectSsort => true
  | _ => false

def isHomog (tnum : PlistKTNum) : Bool :=
  match tnum with
  | empty | hom | homNsort | homSsort | tab | tabNsort | tabSsort | tabRect | tabRectNsort
  | tabRectSsort | cyc | cycNsort | cycSsort | ffe => true
  | _ => false

def isNhomog (tnum : PlistKTNum) : Bool :=
  match tnum with
  | denseNhom | denseNhomSsort | denseNhomNsort => true
  | _ => false

def isCyc (tnum : PlistKTNum) : Bool :=
  match tnum with
  | cyc | cycNsort | cycSsort => true
  | _ => false

def setFiltTab (tnum : PlistKTNum) (fn : ListFilter) : Option PlistKTNum :=
  match tnum, fn with
  | plist, .isDense => some dense
  | plist, .isNdense => some ndense
  | plist, .isHomog => some hom
  | plist, .isTable => some tab
  | plist, .isRect => some tabRect
  | plist, _ => some plist
  | empty, .isDense | empty, .isHomog | empty, .isSsort => some empty
  | empty, _ => none
  | dense, .isNdense => none
  | dense, .isHomog => some hom
  | dense, .isNhomog => some denseNhom
  | dense, .isTable => some tab
  | dense, .isRect => some tabRect
  | dense, _ => some dense
  | denseNhom, .isDense | denseNhom, .isNhomog => some denseNhom
  | denseNhom, .isSsort => some denseNhomSsort
  | denseNhom, .isNsort => some denseNhomNsort
  | denseNhom, _ => none
  | denseNhomSsort, .isDense | denseNhomSsort, .isNhomog
  | denseNhomSsort, .isSsort => some denseNhomSsort
  | denseNhomSsort, _ => none
  | denseNhomNsort, .isDense | denseNhomNsort, .isNhomog
  | denseNhomNsort, .isNsort => some denseNhomNsort
  | denseNhomNsort, _ => none
  | ndense, .isNdense | ndense, .isNhomog | ndense, .isSsort | ndense, .isNsort => some ndense
  | ndense, _ => none
  | hom, .isDense | hom, .isHomog => some hom
  | hom, .isTable => some tab
  | hom, .isRect => some tabRect
  | hom, .isSsort => some homSsort
  | hom, .isNsort => some homNsort
  | hom, _ => none
  | homSsort, .isDense | homSsort, .isHomog | homSsort, .isSsort => some homSsort
  | homSsort, .isTable => some tabSsort
  | homSsort, .isRect => some tabRectSsort
  | homSsort, _ => none
  | homNsort, .isDense | homNsort, .isHomog | homNsort, .isNsort => some homNsort
  | homNsort, .isTable => some tabNsort
  | homNsort, .isRect => some tabRectNsort
  | homNsort, _ => none
  | tab, .isDense | tab, .isHomog | tab, .isTable => some tab
  | tab, .isRect => some tabRect
  | tab, .isSsort => some tabSsort
  | tab, .isNsort => some tabNsort
  | tab, _ => none
  | tabSsort, .isRect => some tabRectSsort
  | tabSsort, .isDense | tabSsort, .isHomog | tabSsort, .isTable
  | tabSsort, .isSsort => some tabSsort
  | tabSsort, _ => none
  | tabNsort, .isRect => some tabRectNsort
  | tabNsort, .isDense | tabNsort, .isHomog | tabNsort, .isTable
  | tabNsort, .isNsort => some tabNsort
  | tabNsort, _ => none
  | tabRect, .isNdense | tabRect, .isNhomog => none
  | tabRect, .isSsort => some tabRectSsort
  | tabRect, .isNsort => some tabRectNsort
  | tabRect, _ => some tabRect
  | tabRectSsort, .isNdense | tabRectSsort, .isNhomog | tabRectSsort, .isNsort => none
  | tabRectSsort, _ => some tabRectSsort
  | tabRectNsort, .isNdense | tabRectNsort, .isNhomog | tabRectNsort, .isSsort => none
  | tabRectNsort, _ => some tabRectNsort
  | cyc, .isDense | cyc, .isHomog => some cyc
  | cyc, .isSsort => some cycSsort
  | cyc, .isNsort => some cycNsort
  | cyc, _ => none
  | cycSsort, .isDense | cycSsort, .isHomog | cycSsort, .isSsort => some cycSsort
  | cycSsort, _ => none
  | cycNsort, .isDense | cycNsort, .isHomog | cycNsort, .isNsort => some cycNsort
  | cycNsort, _ => none
  | ffe, .isDense | ffe, .isHomog | ffe, .isSsort | ffe, .isNsort => some ffe
  | ffe, _ => none

def setFiltList (tnum : PlistKTNum) (fn : ListFilter) : PlistKTNum :=
  match setFiltTab tnum fn with
  | some tnum => tnum
  | none => tnum

end PlistKTNum

structure IsTruthful {α : Type} [LT α] (tnum : PlistKTNum) (entries : List α) : Prop where
  ssort : tnum.isSsort = true → entries.Pairwise (· < ·)
  nsort : tnum.isNsort = true → ¬entries.Pairwise (· < ·)

section

variable {α : Type} [LT α] {tnum : PlistKTNum} {entries : List α}

theorem isTruthful_ssort (hn : tnum.isNsort = false) (h : entries.Pairwise (· < ·))
    : IsTruthful tnum entries where
  ssort := fun _ => h
  nsort := by
    intro hns
    rw [hn] at hns
    contradiction

theorem isTruthful_unknown (hs : tnum.isSsort = false) (hn : tnum.isNsort = false)
    : IsTruthful tnum entries where
  ssort := by
    intro hss
    rw [hs] at hss
    contradiction
  nsort := by
    intro hns
    rw [hn] at hns
    contradiction

end
