import FeatureQuery.Condition.Document
import FeatureQuery.Query
import FeatureQuery.Session.Command
import FeatureQuery.Token.Listing

/-!
# Sessions

A session answers commands, one after the other. All it remembers is the last query that could be
built.
-/

namespace FeatureQuery

structure Session where
  silent : Bool
  query : Option Query
  deriving DecidableEq, Repr

structure Reply where
  out : Text
  session : Session
  /-- The session waits for another command. -/
  goesOn : Bool
  deriving DecidableEq, Repr

def Text.println (t : Text) : Text := t ++ ['\n']

namespace Session

def start (silent : Bool) : Session := ⟨silent, none⟩

def help : Text :=
  "命令:
  cond <condition>   解析 @supports 条件并显示 AST
  check <feature>    检查特性能否通过当前条件 (true / false / undetermined)
  tokens <condition> 显示条件的 token 序列
  help               显示帮助
  quit | exit        退出".toList

def answerText : Option Bool → Text
  | some true => "true".toList
  | some false => "false".toList
  | none => "undetermined".toList

/-- The reply to a condition; one that is refused leaves the session as it was. -/
def handleCondition (s : Session) (t : Text) : Reply :=
  match Query.build s.silent t with
  | .ok q =>
    ⟨Text.println "✓ 解析成功".toList ++ Text.println q.condition.indented,
      { s with query := some q }, true⟩
  | .error e => ⟨Text.println ("✗ 解析失败: ".toList ++ e.message), s, true⟩

def checkLine (s : Session) (feature : Text) : Text :=
  match s.query with
  | none => "尚未设置条件，请先使用 cond <condition>".toList
  | some q =>
    match q.check feature with
    | .ok answer => answerText answer
    | .error e => "✗ 查询失败: ".toList ++ e.message

def handle (s : Session) : Command → Reply
  | .blank => ⟨[], s, true⟩
  | .help => ⟨Text.println help, s, true⟩
  | .quit => ⟨[], s, false⟩
  | .condition t => s.handleCondition t
  | .check feature => ⟨Text.println (s.checkLine feature), s, true⟩
  | .tokens t => ⟨(tokenize t).flatMap fun token => Text.println token.listing, s, true⟩
  | .unknown name =>
    ⟨Text.println ("未知命令 '".toList ++ name ++ "'，输入 help 查看帮助".toList), s, true⟩

/-- The replies to lines, up to the one that ends the session. -/
def run (s : Session) : List Text → List Reply
  | [] => []
  | line :: lines =>
    let reply := s.handle (.ofLine line)
    if reply.goesOn then reply :: reply.session.run lines else [reply]

end Session

end FeatureQuery
