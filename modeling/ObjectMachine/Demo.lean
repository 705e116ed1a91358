import ObjectMachine.Program

namespace ObjectMachine

structure Demo where
  name : String
  about : String
  /-- Whether it runs when no demo is named. -/
  byDefault : Bool := true
  /-- The result of the first statement list. -/
  answer : Option String
  program : Program
  deriving Inhabited

namespace Demo

def single (temps : List String) (body : List Expr) : Program :=
  { doIts := [{ name := "doIt", temps, body }] }

def arithmetic : Program := single [] [.ret (.binary (.int 1) "+" (.int 2))]

def increment (name : String) : Expr := .assign name (.binary (.variable name) "+" (.int 1))

def countingLoop : Program :=
  single ["i"] [
    .assign "i" (.int 0),
    .send (.thunk [.binary (.variable "i") "<" (.int 5)]) "whileTrue:" [.thunk [increment "i"]],
    .ret (.variable "i")]

def closure : Program :=
  single ["base", "adder"] [
    .assign "base" (.int 10),
    .assign "adder" (.block ["x"] [] [.binary (.variable "base") "+" (.variable "x")]),
    .ret (.binary (.variable "adder") "value:" (.int 3))]

def nestedCapture : Program :=
  let sum := .binary (.binary (.variable "a") "+" (.variable "b")) "+" (.variable "c")
  let inner := .block ["c"] [] [.assign "a" sum]
  let outer := .block ["b"] [] [.binary inner "value:" (.int 100)]
  single ["a"] [
    .assign "a" (.int 1),
    .binary outer "value:" (.int 10),
    .ret (.variable "a")]

def nonLocalReturn : Program :=
  let found := .thunk [.ret (.binary (.variable "i") "*" (.int 100))]
  let look := .block ["i"] []
    [.send (.binary (.variable "i") "=" (.variable "n")) "ifTrue:" [found]]
  let find : Method :=
    { selector := "find:", params := ["n"]
      body := [.send (.int 1) "to:do:" [.int 10, look], .ret (.int 0)] }
  { classes := [{ name := "Finder", superclass := "Object", methods := [find] }]
    doIts := [{
      name := "doIt"
      body := [.ret (.binary (.unary (.variable "Finder") "new") "find:" (.int 7))] }] }

def superSend : Program :=
  let animal : ClassDefinition :=
    { name := "Animal", superclass := "Object", instanceVariables := ["kind"]
      methods := [
        { selector := "kind", body := [.ret (.variable "kind")] },
        { selector := "describe", body := [.ret (.str "an animal")] }] }
  let description := .binary (.binary (.variable "kind") "," (.str ", which is ")) ","
    (.superSend "describe" [])
  let dog : ClassDefinition :=
    { name := "Dog", superclass := "Animal"
      methods := [
        { selector := "initialize", body := [.assign "kind" (.str "a dog")] },
        { selector := "describe", body := [.ret description] }] }
  { classes := [animal, dog]
    doIts := [{
      name := "doIt", temps := ["dog"]
      body := [
        .assign "dog" (.unary (.variable "Dog") "new"),
        .unary (.variable "dog") "initialize",
        .ret (.unary (.variable "dog") "describe")] }] }

/-- Shows a tag three times and yields after each. -/
def chatty (tag : String) : Expr :=
  let line := .binary (.str tag) "," (.unary (.variable "i") "printString")
  .send (.int 1) "to:do:" [.int 3,
    .block ["i"] [] [.unary line "displayNl", .unary (.variable "Process") "yield"]]

def processes : Program :=
  let fork (tag : String) := .binary (.thunk [chatty tag]) "forkNamed:" (.str tag)
  single [] [fork "ping ", fork "pong ", .ret (.int 0)]

def churn : Program :=
  single ["keep", "junk", "i"] [
    .assign "keep" (.binary (.variable "Array") "new:" (.int 3)),
    .send (.variable "keep") "at:put:" [.int 1, .str "kept"],
    .assign "i" (.int 0),
    .send (.thunk [.binary (.variable "i") "<" (.int 20000)]) "whileTrue:" [.thunk [
      .assign "junk" (.binary (.variable "Array") "new:" (.int 50)),
      .send (.variable "junk") "at:put:" [.int 1, .variable "keep"],
      increment "i"]],
    .ret (.binary (.binary (.binary (.variable "keep") "at:" (.int 1)) "," (.str " after ")) ","
      (.unary (.variable "i") "printString"))]

def notUnderstood : Program := single [] [.ret (.unary (.int 3) "frobnicate")]

def all : List Demo := [
  { name := "arithmetic", about := "a single inlined binary op"
    answer := some "3", program := arithmetic },
  { name := "loop", about := "whileTrue: compiled to branches"
    answer := some "5", program := countingLoop },
  { name := "closure", about := "a block capturing a method temporary"
    answer := some "13", program := closure },
  { name := "nested", about := "a temporary assigned two blocks down"
    answer := some "111", program := nestedCapture },
  { name := "return", about := "non-local return out of to:do:"
    answer := some "700", program := nonLocalReturn },
  { name := "super", about := "super sends up a user-defined hierarchy"
    answer := some "'a dog, which is an animal'", program := superSend },
  { name := "processes", about := "two forked processes taking turns"
    answer := some "0", program := processes },
  { name := "gc", about := "allocation churn across collections"
    answer := some "'kept after 20000'", program := churn },
  { name := "dnu", about := "an unknown selector aborts with a Context trace"
    byDefault := false, answer := none, program := notUnderstood }]

def find? (name : String) : Option Demo := all.find? (·.name == name)

end Demo

end ObjectMachine
