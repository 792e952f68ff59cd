/-
Video memory by offsets from `BASE_ADDR` (sys/kprintf.h, sys/main.c): 24 rows of 80 cells, each a
character and its attribute, and below them the status row with the time and the keys.
-/
import Mathlib.Logic.Function.Basic

namespace Sbunix.Console

abbrev Video := Nat → BitVec 8

/-- In bytes. -/
def maxScreenWidth : Nat := 160

def maxScreenHeight : Nat := 24

/-- `0x07` -/
def lightGrey : BitVec 8 := 0x07

def timeAddress : Nat := maxScreenWidth * 24 + 120

def keypressBanner : Nat := maxScreenWidth * 24

def ctrlKeypressAddress : Nat := maxScreenWidth * 24 + 21

def keypressAddress : Nat := maxScreenWidth * 24 + 23

def Video.store (video : Video) (address : Nat) (v : BitVec 8) : Video := Function.update video address v

theorem Video.store_apply (video : Video) (address k : Nat) (v : BitVec 8) :
    video.store address v k = if k = address then v else video k := Function.update_apply ..

end Sbunix.Console
