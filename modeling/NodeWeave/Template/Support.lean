import NodeWeave.Settings.FileSpec
import NodeWeave.Template.Printer

/-!
The built-in templates of the classes that a woven grammar depends on: the stack of nodes, and the
interface with the constants of the nodes.
-/

namespace NodeWeave.Template.Support

def lines (texts : List String) : Part :=
  .text (Text.join "\n" texts)

def rootClass : Part := .value "grammar.rootNode.class.qualifiedName"

/-- The interface with a constant for every node, and with the names of the nodes. -/
def constantsInterface : List Part :=
  [.block .whenTrue "package" [.text "package ", .value "package", .text ";"],
    lines ["", "", "/* Generated by jjtx from "],
    .value "grammar.name",
    lines [". Do not edit. */", "public interface "],
    .value "simpleName",
    lines [" \x7b", ""],
    .block .each "grammar.nodeConstants" [.text "  int ", .value "constant", .text " = ",
      .value "value", lines [";", ""]],
    lines ["", "  String[] jjtNodeName = \x7b", ""],
    .block .each "grammar.nodeConstants" [.text "    \"", .value "name", lines ["\",", ""]],
    lines ["  \x7d;", "\x7d", ""]]

/-- The class that keeps the stack of nodes while the parser runs. -/
def stackClass : List Part :=
  [.block .whenTrue "package" [.text "package ", .value "package", .text ";"],
    lines ["", "", "/* Generated by jjtx from "],
    .value "grammar.name",
    lines [". Do not edit. */", "public class "],
    .value "simpleName",
    lines [" \x7b", "", "  private final java.util.List<"],
    rootClass,
    lines [
      "> nodes = new java.util.ArrayList<>();",
      "  private final java.util.List<Integer> marks = new java.util.ArrayList<>();",
      "",
      "  /* number of nodes on the stack */",
      "  private int sp = 0;",
      "  /* index of the first node of the current scope */",
      "  private int mk = 0;",
      "  private boolean nodeCreated;",
      "",
      "  /**",
      "   * Whether the current node was closed and pushed. Only meaningful in the",
      "   * final action of a node scope.",
      "   */",
      "  public boolean nodeCreated() \x7b",
      "    return nodeCreated;",
      "  \x7d",
      "",
      "  /** Reinitializes the node stack. */",
      "  public void reset() \x7b",
      "    nodes.clear();",
      "    marks.clear();",
      "    sp = 0;",
      "    mk = 0;",
      "  \x7d",
      "",
      "  /** The root of the tree, after a successful parse. */",
      "  public "],
    rootClass,
    lines [
      " rootNode() \x7b",
      "    return nodes.get(0);",
      "  \x7d",
      "",
      "  public void pushNode("],
    rootClass,
    lines [" n) \x7b", "    nodes.add(n);", "    ++sp;", "  \x7d", "", "  public "],
    rootClass,
    lines [
      " popNode() \x7b",
      "    if (--sp < mk) \x7b",
      "      mk = marks.remove(marks.size() - 1);",
      "    \x7d",
      "    return nodes.remove(nodes.size() - 1);",
      "  \x7d",
      "",
      "  public "],
    rootClass,
    lines [
      " peekNode() \x7b",
      "    return nodes.get(nodes.size() - 1);",
      "  \x7d",
      "",
      "  /** Number of children pushed in the current node scope. */",
      "  public int nodeArity() \x7b",
      "    return sp - mk;",
      "  \x7d",
      "",
      "  public void clearNodeScope("],
    rootClass,
    lines [
      " n) \x7b",
      "    while (sp > mk) \x7b",
      "      popNode();",
      "    \x7d",
      "    mk = marks.remove(marks.size() - 1);",
      "  \x7d",
      "",
      "  public void openNodeScope("],
    rootClass,
    lines [
      " n) \x7b",
      "    marks.add(mk);",
      "    mk = sp;",
      "    n.jjtOpen();",
      "  \x7d",
      "",
      "  /** Closes a definite node, which takes the last `num` nodes as children. */",
      "  public void closeNodeScope("],
    rootClass,
    lines [
      " n, int num) \x7b",
      "    mk = marks.remove(marks.size() - 1);",
      "    while (num-- > 0) \x7b",
      "      "],
    rootClass,
    lines [
      " c = popNode();",
      "      c.jjtSetParent(n);",
      "      n.jjtAddChild(c, num);",
      "    \x7d",
      "    n.jjtClose();",
      "    pushNode(n);",
      "    nodeCreated = true;",
      "  \x7d",
      "",
      "  /**",
      "   * Closes a conditional node. When the condition holds, every node pushed",
      "   * since the scope was opened becomes a child; otherwise they stay on the",
      "   * stack.",
      "   */",
      "  public void closeNodeScope("],
    rootClass,
    lines [
      " n, boolean condition) \x7b",
      "    if (condition) \x7b",
      "      int a = nodeArity();",
      "      mk = marks.remove(marks.size() - 1);",
      "      while (a-- > 0) \x7b",
      "        "],
    rootClass,
    lines [
      " c = popNode();",
      "        c.jjtSetParent(n);",
      "        n.jjtAddChild(c, a);",
      "      \x7d",
      "      n.jjtClose();",
      "      pushNode(n);",
      "      nodeCreated = true;",
      "    \x7d else \x7b",
      "      mk = marks.remove(marks.size() - 1);",
      "      nodeCreated = false;",
      "    \x7d",
      "  \x7d",
      "\x7d",
      ""]]

def files : Index FileSpec :=
  [("parserState",
      { template := some (writeParts stackClass)
        className := some (tagText "grammar.treeState.qualifiedName") }),
    ("treeConstants",
      { template := some (writeParts constantsInterface)
        className := some (tagText "grammar.parser.qualifiedName" ++ "TreeConstants") })]

end NodeWeave.Template.Support
